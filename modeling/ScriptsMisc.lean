import ScriptsMisc.Ahk.CaseList
import ScriptsMisc.Ahk.PlanDetails
import ScriptsMisc.Ahk.SaveData
import ScriptsMisc.Browser.Highlighting
import ScriptsMisc.Cdr.CamelCase
import ScriptsMisc.Cdr.FieldIds
import ScriptsMisc.Cdr.Fields
import ScriptsMisc.Cdr.TabHighlights
import ScriptsMisc.Cdr.TabValidation
import ScriptsMisc.Javascript.Keys
import ScriptsMisc.Javascript.Markup
import ScriptsMisc.Javascript.PasswordBar
import ScriptsMisc.Javascript.PasswordEncoding
import ScriptsMisc.Javascript.RoundTrip
import ScriptsMisc.Javascript.Vigenere
import ScriptsMisc.Lib.Cyclic
import ScriptsMisc.Lib.Elements
import ScriptsMisc.Lib.Escape
import ScriptsMisc.Lib.Footprint
import ScriptsMisc.Lib.Guards
import ScriptsMisc.Lib.Lexical
import ScriptsMisc.Lib.Mealy
import ScriptsMisc.Lib.Records
import ScriptsMisc.Lib.Regex
import ScriptsMisc.Lib.Reports
import ScriptsMisc.Lib.Returns
import ScriptsMisc.Lib.Rounds
import ScriptsMisc.Lib.Routine
import ScriptsMisc.Lib.Runs
import ScriptsMisc.Lib.Spacing
import ScriptsMisc.Lib.Text
import ScriptsMisc.Lib.Tours
import ScriptsMisc.Lib.Uri
import ScriptsMisc.Lib.Verdict
import ScriptsMisc.OaBills.AdjustmentIds
import ScriptsMisc.OaBills.AdjustmentLookup
import ScriptsMisc.OaBills.BillIsolation
import ScriptsMisc.OaBills.CompleteBills
import ScriptsMisc.OaBills.EndOfData
import ScriptsMisc.OaBills.Lifecycle
import ScriptsMisc.OaBills.MemberChecks
import ScriptsMisc.OaBills.MemberIds
import ScriptsMisc.OaBills.MemberWalk
import ScriptsMisc.OaBills.PageTexts
import ScriptsMisc.OaBills.Recordset
import ScriptsMisc.OaBills.SummarizedRuns
import ScriptsMisc.OaBills.SummaryIds
import ScriptsMisc.OaBills.SummaryRollups
import ScriptsMisc.OaBills.SummaryWalk
import ScriptsMisc.OaBills.Validation
import ScriptsMisc.Python.CrawlHosts
import ScriptsMisc.Python.CrawlRuns
import ScriptsMisc.Python.CrawlStore
import ScriptsMisc.Python.Crawler
import ScriptsMisc.Python.LinkExtraction
import ScriptsMisc.Python.LinkResolution
import ScriptsMisc.Python.RackSearch
import ScriptsMisc.Python.SaveConflicts
import ScriptsMisc.Python.SaveContainment
import ScriptsMisc.Python.SavePage
import ScriptsMisc.Python.Urlparse
import ScriptsMisc.Python.WordBoards
import ScriptsMisc.Python.WordScore
import ScriptsMisc.Python.Words
import ScriptsMisc.Vbs.Variant
import ScriptsMisc.Vdr.ColumnLookup
import ScriptsMisc.Vdr.CompareHtml
import ScriptsMisc.Vdr.CompareHtmlXls
import ScriptsMisc.Vdr.CompareXls
import ScriptsMisc.Vdr.Coverage
import ScriptsMisc.Vdr.MemberSearch
import ScriptsMisc.Vdr.Reports
import ScriptsMisc.Vdr.Worksheet
