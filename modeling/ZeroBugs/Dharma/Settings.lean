import ZeroBugs.Dharma.StreamRoundTrip

/-! # Persisted settings -/
namespace ZeroBugs.Dharma
open Dharma.Stream

/-- What the settings call on an object: the object as `InputStreamEvents`, and
as `Streamable` if it implements that. -/
structure Interfaces (O : Type) where
  events : Events O
  onObjectEnd : O → O
  streamable : O → Option Streamable

abbrev Factory (O : Type) := Uuid → CString → Option O

/-- `Settings` with the maps of `PropertiesImpl`. -/
structure Settings (O : Type) where
  wordMap : AList fun _ : CString => UInt64
  doubleMap : AList fun _ : CString => UInt64
  stringMap : AList fun _ : CString => CString
  objectMap : AList fun _ : CString => O
  opaqueList : List (List UInt8)

namespace Settings

variable {O : Type}

def empty : Settings O := ⟨∅, ∅, ∅, ∅, []⟩

def putObject (s : Settings O) (name : CString) (obj : O) : Settings O :=
  { s with objectMap := s.objectMap.insert name obj }

/-- `PropertiesImpl::set_object` with an object: one that is there under the name
is replaced only by an object of the same type. -/
def setObject (cls : Interfaces O) (s : Settings O) (name : CString) (obj : O) :
    Except Fault (Settings O) :=
  match s.objectMap.lookup name with
  | none => .ok (s.putObject name obj)
  | some old =>
    match cls.streamable old, cls.streamable obj with
    | some objOld, some objNew =>
      if objOld.uuid = objNew.uuid then .ok (s.putObject name obj)
      else .error (.typeOverride name (some (objOld.uuid, objNew.uuid)))
    | none, none => .ok (s.putObject name obj)
    | _, _ => .error (.typeOverride name none)

/-- `Settings::on_object_begin`. `on_object_end` is called when the object is
already in the map, which holds it by reference. -/
def onObjectBegin (cls : Interfaces O) (factory : Option (Factory O)) (s : Settings O)
    (inp : Input) (name : CString) (uuid : Uuid) (size : Nat) :
    Except Fault (Nat × Input × Settings O) :=
  match factory with
  | none => .ok (0, inp, s)
  | some create =>
    match create uuid name with
    | none => .ok (0, inp, s)
    | some obj => do
      let (nread, inp, obj) ← readLoop cls.events size 0 inp obj
      let s ← s.setObject cls name obj
      return (nread, inp, s.putObject name (cls.onObjectEnd obj))

def events (cls : Interfaces O) (factory : Option (Factory O)) : Events (Settings O) where
  onWord s name val := { s with wordMap := s.wordMap.insert name val }
  onDouble s name val := { s with doubleMap := s.doubleMap.insert name val }
  onString s name val := { s with stringMap := s.stringMap.insert name val }
  onBytes s _ _ := s
  onObjectBegin := onObjectBegin cls factory
  onOpaque s _ _ bytes := { s with opaqueList := s.opaqueList ++ [bytes] }

/-- The loop of `DebuggerBase::properties` that reads the settings file until
nothing is read. Without an answer after `fuel` turns the result is `none`. -/
def load (cls : Interfaces O) (factory : Option (Factory O)) :
    Nat → Input → Settings O → Option (Except Fault (Settings O))
  | 0, _, _ => none
  | fuel + 1, inp, s =>
    match read (some (events cls factory)) s inp with
    | .error e => some (.error e)
    | .ok (bytesRead, inp, s) => if bytesRead = 0 then some (.ok s) else load cls factory fuel inp s

end Settings

namespace Stream

/-- A loop that writes element after element and adds up what each write returns. -/
def writeEach {α : Type} (write : α → BStream → Except Fault (Nat × BStream)) :
    List α → BStream → Except Fault (Nat × BStream)
  | [], os => .ok (0, os)
  | x :: xs, os => do
    let (n, os) ← write x os
    let (k, os) ← writeEach write xs os
    return (n + k, os)

/-- `OutputStreamImpl::write_opaque`. The descriptor's size and the length of the
name are added in 32 bits. -/
def BStream.writeOpaque (os : BStream) (bytes : List UInt8) : Except Fault (Nat × BStream) :=
  if bytes.length < 8 then .error (.runtimeError "write_opaque: invalid object")
  else
    let desc := Descriptor.ofBuffer bytes
    let calcSize := (desc.size + desc.namelen.toUInt32).toNat + 8 + 16
    if desc.type ≠ Tag.object ∨ calcSize ≠ bytes.length then
      .error (.runtimeError "write_opaque: Invalid object")
    else .ok (bytes.length, os.writeBuffer bytes bytes.length)

end Stream

namespace Settings

variable {O : Type}

/-- One entry of the object map: an object that is not streamable is left out. -/
def writeEntry (cls : Interfaces O) (entry : (_ : CString) × O) (os : BStream) :
    Except Fault (Nat × BStream) :=
  match cls.streamable entry.2 with
  | some streamable => os.writeObject entry.1 streamable
  | none => .ok (0, os)

def writeProperties (cls : Interfaces O) (s : Settings O) (os : BStream) :
    Except Fault (Nat × BStream) := do
  let (n, os) ← writeEach (fun e os => .ok (os.writeWord e.1 e.2)) s.wordMap.entries os
  let (m, os) ← writeEach (fun e os => .ok (os.writeDouble e.1 e.2)) s.doubleMap.entries os
  let (k, os) ← writeEach (fun e os => .ok (os.writeString e.1 e.2)) s.stringMap.entries os
  let (l, os) ← writeEach (writeEntry cls) s.objectMap.entries os
  return (n + m + k + l, os)

def write (cls : Interfaces O) (save : Bool) (s : Settings O) (os : BStream) :
    Except Fault (Nat × BStream) :=
  if save = false then .ok (0, os)
  else do
    let (n, os) ← s.writeProperties cls os
    let (k, os) ← writeEach (fun bytes os => os.writeOpaque bytes) s.opaqueList os
    return (n + k, os)

end Settings

end ZeroBugs.Dharma
