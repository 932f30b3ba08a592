import ZeroBugs.Lib.MultiMap

/-! # Source lines to addresses -/
namespace ZeroBugs.Dwarfz
open Lib

structure LineRow where
  file : Option String
  line : Nat
  addr : Nat
  endSequence : Bool

structure CompileUnit where
  fullPath : String
  lowPc : Nat
  highPc : Nat
  rows : List LineRow

namespace CompileUnit

/-- `LineInfoCache::add_line_info`: rows that end a sequence or lie outside the
unit are left out, and the first row of an address stays. -/
def addLineInfo (unit : CompileUnit) (map : MultiMap Nat LineRow) (row : LineRow) :
    MultiMap Nat LineRow :=
  if row.endSequence ∨ row.addr = 0 ∨ (unit.lowPc ≠ 0 ∧ row.addr < unit.lowPc) ∨
      (unit.highPc ≠ 0 ∧ unit.highPc < row.addr) then map
  else if (map.group row.addr).isEmpty then map.insert row.addr row
  else map

/-- The rows `export_line_info` reports, in the order of their addresses. -/
def exported (unit : CompileUnit) : List LineRow :=
  (unit.rows.foldl unit.addLineInfo .empty).entries.map Prod.snd

end CompileUnit

structure SrcLineMap where
  unitFileName : Option String
  addrByFile : String → Option (MultiMap Nat Nat)
  cancelled : Bool

/-- A query: the file, the line, and whether the caller's `on_srcline` goes on
after the lines and addresses it was told of. -/
structure LineQuery where
  file : String
  line : Nat
  goesOn : List (Nat × Nat) → Bool

def notifyLines (goesOn : List (Nat × Nat) → Bool) :
    List (Nat × Nat) → List (Nat × Nat) → Bool × List (Nat × Nat)
  | [], told => (true, told)
  | e :: es, told =>
    if goesOn (told ++ [e]) then notifyLines goesOn es (told ++ [e]) else (false, told ++ [e])

/-- The entries for the first line from `line` on, or the last entry of all. -/
def nearest (m : MultiMap Nat Nat) (line : Nat) : List (Nat × Nat) :=
  match m.from_ line with
  | e :: es => e :: es.takeWhile (·.1 = e.1)
  | [] => m.entries.getLast?.toList

namespace SrcLineMap

def onSrcline (map : SrcLineMap) (row : LineRow) : SrcLineMap :=
  match row.file with
  | none => map
  | some path =>
    let addrByLine := (map.addrByFile path).getD .empty
    { map with addrByFile :=
        Function.update map.addrByFile path (some (addrByLine.insert row.line row.addr)) }

def cacheSrclines (map : SrcLineMap) (unit : CompileUnit) : SrcLineMap :=
  unit.exported.foldl onSrcline map

def ofUnit (unit : CompileUnit) : SrcLineMap :=
  cacheSrclines ⟨some unit.fullPath, fun _ => none, false⟩ unit

def ofModule (units : List CompileUnit) : SrcLineMap :=
  units.foldl cacheSrclines ⟨none, fun _ => none, false⟩

def matches_ (map : SrcLineMap) (filename : String) : Bool :=
  map.unitFileName == none || map.unitFileName == some "" || map.unitFileName == some filename

/-- `SrcLineMap::line_to_addr`: the result, what the caller was told, and the map, which is of no
more use when the caller stopped. -/
def lineToAddr (map : SrcLineMap) (q : LineQuery) : (Bool × List (Nat × Nat)) × SrcLineMap :=
  if map.cancelled then ((false, []), map)
  else match map.addrByFile q.file with
  | none => ((true, []), map)
  | some m =>
    if m.entries.isEmpty then ((false, []), map)
    else
      let result := notifyLines q.goesOn (nearest m q.line) []
      (result, { map with cancelled := !result.1 })

end SrcLineMap

def lookupUnit (units : List CompileUnit) (fname : String) : Option CompileUnit :=
  units.find? (·.fullPath == fname)

def validateLineMap (srcLineMap : Option SrcLineMap) (filename : String) : Option SrcLineMap :=
  srcLineMap.filter fun map => !map.cancelled && map.matches_ filename

def currentLineMap (units : List CompileUnit) (srcLineMap : Option SrcLineMap)
    (filename : String) : SrcLineMap :=
  let map := validateLineMap srcLineMap filename
  let map := if map.isNone then (lookupUnit units filename).map .ofUnit else map
  (validateLineMap map filename).getD (.ofModule units)

def lineToAddr (units : List CompileUnit) (srcLineMap : Option SrcLineMap) (q : LineQuery) :
    (Bool × List (Nat × Nat)) × Option SrcLineMap :=
  let (answer, map) := (currentLineMap units srcLineMap q.file).lineToAddr q
  (answer, some map)

end ZeroBugs.Dwarfz
