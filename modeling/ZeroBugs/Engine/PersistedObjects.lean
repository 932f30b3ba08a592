import ZeroBugs.Dharma.ObjectLoops
import ZeroBugs.Dharma.Settings

/-! # Objects that read themselves from a stream -/
namespace ZeroBugs.Engine
open Lib Dharma Dharma.Stream

inductive ObjectLoop where
  | settingsObject
  | historyEntry
  /-- `HistoryEntryImpl::on_object_begin`, for the properties -/
  | entrySettings
  | entryModule
  /-- `ModuleImpl::on_object_begin` -/
  | breakPointImage
  | message
  deriving DecidableEq

def ObjectLoop.loop : ObjectLoop → Loop
  | .settingsObject | .entrySettings => ⟨true, .stop⟩
  | .historyEntry | .entryModule => ⟨true, .assert⟩
  | .breakPointImage => ⟨false, .ignore⟩
  | .message => ⟨true, .ignore⟩

def isName (name : CString) (text : String) : Bool :=
  name.bytes == text.toList.map fun c => UInt8.ofNat c.toNat

def nameText (name : CString) : String :=
  String.ofList (name.bytes.map fun b => Char.ofNat b.toNat)

def hexText (width n : Nat) : String :=
  let digits := Nat.toDigits 16 n
  String.ofList (List.replicate (width - digits.length) '0' ++ digits)

/-- `uuid_to_string`: the members of the structure are little-endian in memory. -/
def uuidText (uuid : Uuid) : String :=
  let member (start count : Nat) := LittleEndian.decode ((uuid.bytes.drop start).take count)
  hexText 8 (member 0 4) ++ "-" ++ hexText 4 (member 4 2) ++ "-" ++ hexText 4 (member 6 2) ++ "-" ++
    hexText 4 (member 8 2) ++ "-" ++
    String.join ((uuid.bytes.drop 10).map fun b => hexText 2 b.toNat)

def persistentError (cls : String) (name : CString) (type : String) : Fault :=
  .runtimeError (cls ++ " has no member `" ++ nameText name ++ "' of type " ++ type)

/-- `BreakPointImage`, with the values its constructor sets. `line_` is not
initialised there. -/
structure BreakPointImage where
  addr : UInt64 := 0
  enabled : UInt64 := 0xFFFFFFFFFFFFFFFF
  deferred : UInt64 := 0xFFFFFFFFFFFFFFFF
  symName : Option CString := none
  file : Option CString := none
  line : UInt64 := 0
  activationCount : UInt64 := 0
  lwpid : UInt32 := 0
  condition : CString := .ofBuffer []
  type : UInt32 := 1

def setOnce (initial : Bool) (b : BreakPointImage) : Except Fault BreakPointImage :=
  if initial then .ok b else .error .assertion

namespace BreakPointImage

def onWord (b : BreakPointImage) (name : CString) (value : UInt64) :
    Except Fault BreakPointImage :=
  if isName name "addr" then setOnce (b.addr == 0) { b with addr := value }
  else if isName name "enbl" then
    setOnce (b.enabled == 0xFFFFFFFFFFFFFFFF) { b with enabled := value }
  else if isName name "line" then .ok { b with line := value }
  else if isName name "actc" then
    setOnce (b.activationCount == 0) { b with activationCount := value }
  else if isName name "type" then setOnce (b.type == 1) { b with type := value.toUInt32 }
  else if isName name "lwpid" then setOnce (b.lwpid == 0) { b with lwpid := value.toUInt32 }
  else if isName name "defer" then
    setOnce (b.deferred == 0xFFFFFFFFFFFFFFFF) { b with deferred := value }
  else .error (persistentError "BreakPointImage" name "int")

def onString (b : BreakPointImage) (name value : CString) : Except Fault BreakPointImage :=
  if isName name "sym" then setOnce b.symName.isNone { b with symName := some value }
  else if isName name "file" then setOnce b.file.isNone { b with file := some value }
  else if isName name "cond" then setOnce b.condition.bytes.isEmpty { b with condition := value }
  else .error (persistentError "BreakPointImage" name "string")

end BreakPointImage

def thrownBy {S : Type} : Except Fault S → Option Fault
  | .error e => some e
  | .ok _ => none

/-- `BreakPointImage` as `InputStreamEvents`; what it does not override throws. -/
def imageReader : Reader (Except Fault BreakPointImage) where
  events := {
    onWord := fun h name value => h >>= fun b => b.onWord name value
    onDouble := fun h name _ =>
      h >>= fun _ => .error (persistentError "BreakPointImage" name "double")
    onString := fun h name value => h >>= fun b => b.onString name value
    onBytes := fun h name _ =>
      h >>= fun _ => .error (persistentError "BreakPointImage" name "opaque")
    onObjectBegin := fun _ _ name uuid _ =>
      .error (persistentError "BreakPointImage" name (uuidText uuid))
    onOpaque := fun h name _ _ =>
      h >>= fun _ => .error (persistentError "BreakPointImage" name "opaque") }
  thrown := thrownBy

/-- `BreakPointImage::_uuid`, b94cae13-d509-443b-b41a-2e41ae74819e -/
def breakPointImageUuid : Uuid where
  bytes := [0x13, 0xae, 0x4c, 0xb9, 0x09, 0xd5, 0x3b, 0x44, 0x1a, 0xb4, 0x2e, 0x41, 0xae, 0x74,
    0x81, 0x9e]
  size := rfl

example : uuidText breakPointImageUuid = "b94cae13-d509-443b-b41a-2e41ae74819e" := by decide

/-- `ModuleImpl`: the breakpoints that were saved with it, by address. -/
structure ModuleImpl where
  breakpoints : AList fun _ : UInt64 => BreakPointImage

def ModuleImpl.addBreakpointImage (m : ModuleImpl) (img : BreakPointImage) : ModuleImpl :=
  if img.addr ∈ m.breakpoints then m else ⟨m.breakpoints.insert img.addr img⟩

def ModuleImpl.onObjectBegin (fuel : Nat) (m : ModuleImpl) (inp : Input) (name : CString)
    (uuid : Uuid) (size : Nat) : Option (Except Fault (Nat × Input × ModuleImpl)) :=
  if uuid ≠ breakPointImageUuid then some (.error (persistentError "Module" name (uuidText uuid)))
  else
    (ObjectLoop.breakPointImage.loop.consume imageReader size fuel ⟨0, inp, .ok {}⟩).map fun r => do
      let st ← r
      let image ← st.handler
      return (st.nread, st.inp, m.addBreakpointImage image)

structure MessageClass (M : Type) where
  onWord : M → CString → UInt64 → Except Fault M
  onDouble : M → CString → UInt64 → Except Fault M
  onString : M → CString → CString → Except Fault M
  onBytes : M → CString → List UInt8 → Except Fault M
  onOpaque : M → CString → Uuid → List UInt8 → Except Fault M

def messageReader {M : Type} (cls : MessageClass M) : Reader (Except Fault M) where
  events := {
    onWord := fun h name value => h >>= fun msg => cls.onWord msg name value
    onDouble := fun h name value => h >>= fun msg => cls.onDouble msg name value
    onString := fun h name value => h >>= fun msg => cls.onString msg name value
    onBytes := fun h name bytes => h >>= fun msg => cls.onBytes msg name bytes
    onObjectBegin := fun _ _ name _ _ =>
      .error (.runtimeError ("on_object_begin: unexpected \"" ++ nameText name ++ "\""))
    onOpaque := fun h name uuid bytes => h >>= fun msg => cls.onOpaque msg name uuid bytes }
  thrown := thrownBy

/-- What the dispatcher uses: the objects its factory makes, which are messages or
not, and the dictionary they are saved into. -/
structure DispatcherEnv (M D : Type) where
  cls : MessageClass M
  createObject : Uuid → CString → Option (Option M)
  setObject : D → CString → Except Fault D

def Dispatcher.onObjectBegin {M D : Type} (env : DispatcherEnv M D) (fuel : Nat) (d : D)
    (inp : Input) (name : CString) (iid : Uuid) (size : Nat) :
    Option (Except Fault (Nat × Input × D × Option M)) :=
  match env.createObject iid name with
  | none => some (.error
      (.runtimeError ("interface not registered with factory: " ++ uuidText iid)))
  | some obj =>
    match env.setObject d name, obj with
    | .error e, _ => some (.error e)
    | .ok d, none => some (.ok (0, inp, d, none))
    | .ok d, some msg =>
      (ObjectLoop.message.loop.consume (messageReader env.cls) size fuel
        ⟨0, inp, .ok msg⟩).map fun r => do
          let st ← r
          let msg ← st.handler
          return (st.nread, st.inp, d, some msg)

theorem imageReader_consumes : imageReader.events.Consumes := by
  intro h inp name uuid size n inp' h' hobj
  cases hobj

def truncated : Input := ⟨[], 0, 4096⟩

end ZeroBugs.Engine
