import ZeroBugs.Dharma.Environ
import ZeroBugs.Dharma.SettingsSurvival
import ZeroBugs.Dharma.SwitchableAction
import ZeroBugs.Dharma.TaskPool
import ZeroBugs.Dwarfz.CtorName
import ZeroBugs.Dwarfz.DieCache
import ZeroBugs.Dwarfz.LineGroups
import ZeroBugs.Dwarfz.RegisterLocation
import ZeroBugs.Dwarfz.UnwindRules
import ZeroBugs.Elfz.CoreMemory
import ZeroBugs.Elfz.CoreNotes
import ZeroBugs.Engine.ActionExecution
import ZeroBugs.Engine.BreakPointNeighbours
import ZeroBugs.Engine.CodeGivenBack
import ZeroBugs.Engine.HardwareBreakPoints
import ZeroBugs.Engine.HitsKept
import ZeroBugs.Engine.LineToAddr
import ZeroBugs.Engine.RemoveActionsSoundness
import ZeroBugs.Engine.SavedBreakPoints
import ZeroBugs.Engine.StackTrace
import ZeroBugs.Engine.StepOverSurvival
import ZeroBugs.Engine.StepToLine
import ZeroBugs.Interp.AdditiveExpr
import ZeroBugs.Interp.ArrayRange
import ZeroBugs.Interp.DeclaratorOrder
import ZeroBugs.Interp.IntegerConstant
import ZeroBugs.Interp.LogicalExpr
import ZeroBugs.Interp.OverloadResolution
import ZeroBugs.Interp.TypeSpec
import ZeroBugs.Plugin.HeapConsistency
import ZeroBugs.Readline.Completion
import ZeroBugs.Readline.LineEditor
import ZeroBugs.Rpc.RemoteStream
import ZeroBugs.Stabz.AddrToLine
import ZeroBugs.Stabz.StabRange
import ZeroBugs.Stabz.StabSafety
import ZeroBugs.Stabz.UnitLookup
import ZeroBugs.Symbolz.AddressLookup
import ZeroBugs.Symbolz.DeferredBreakPoints
import ZeroBugs.Symbolz.NameLookup
import ZeroBugs.Symbolz.PrefixSoundness
import ZeroBugs.Symbolz.SymbolMapUpdate
import ZeroBugs.Target.DebugRegsCalls
import ZeroBugs.Target.MemoryAccess
import ZeroBugs.Target.LinuxTarget
import ZeroBugs.Typez.IntCompare
import ZeroBugs.Typez.LookupChild
import ZeroBugs.Unmangle.DictionaryCapacity
import ZeroBugs.Unmangle.RoundTrip
import ZeroBugs.Unmangle.SubstitutionNumbering
import ZeroBugs.Zdk.ArgvUtil
import ZeroBugs.Zdk.Falloc
import ZeroBugs.Zdk.PageFindSoundness
import ZeroBugs.Zdk.SharedString
