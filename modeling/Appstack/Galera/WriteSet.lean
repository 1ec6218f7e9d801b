import Appstack.Lib.Layout

-- `gu_serialize.hpp`, `key.hpp` and the key part of `write_set.cpp`. A buffer is the list of its
-- bytes. `GALERA_KEY_VLQ` is not defined.

namespace Appstack.Galera.Wire

open Layout

inductive WireError where
  /-- a buffer is too short -/
  | emsgsize
  /-- a size is not representable -/
  | erange
  /-- too many key parts -/
  | einval
  /-- an unknown key version -/
  | eprotonosupport
  /-- `gu_throw_fatal` or `abort` -/
  | fatal

abbrev Result := Except WireError

def serializeInt (w : ℕ) (f : ℕ) (buf : List UInt8) (offset : ℕ) : Result (List UInt8 × ℕ) :=
  let ret := offset + w
  if buf.length < ret then .error .emsgsize
  else .ok (store buf offset (littleEndian w f), ret)

def unserializeInt (w : ℕ) (buf : List UInt8) (offset : ℕ) : Result (ℕ × ℕ) :=
  match load buf offset w with
  | some bs => .ok (ofLittleEndian bs, offset + w)
  | none => .error .emsgsize

def serialSize (w : ℕ) (sb : List UInt8) : Result ℕ :=
  if 256 ^ w - 1 < sb.length then .error .erange else .ok (w + sb.length)

def serializeBuffer (w : ℕ) (b buf : List UInt8) (offset : ℕ) : Result (List UInt8 × ℕ) := do
  let ret := offset + (← serialSize w b)
  if buf.length < ret then throw .emsgsize
  else
    let (buf, offset) ← serializeInt w b.length buf offset
    return (store buf offset b, ret)

def unserializeBuffer (w : ℕ) (buf : List UInt8) (offset : ℕ) : Result (List UInt8 × ℕ) := do
  let (len, offset) ← unserializeInt w buf offset
  match load buf offset len with
  | some b => return (b, offset + len)
  | none => throw .emsgsize

structure Key where
  version : ℕ
  flags : UInt8
  keys : List UInt8
  deriving DecidableEq

/-- A part behind its length, cut to what the length can say. -/
def packPart (part : List UInt8) : List UInt8 :=
  let part := part.take 0xff
  UInt8.ofNat part.length :: part

def Key.make (version : ℕ) (parts : List (List UInt8)) (flags : UInt8) : Result Key :=
  if 255 < parts.length then .error .einval
  else if version = 1 ∨ version = 2 then .ok ⟨version, flags, parts.flatMap packPart⟩
  else .error .fatal

/-- The loop of `key_parts` with the bytes that are left. A part is returned without its length
byte. -/
def keyPartsFrom : ℕ → List UInt8 → Result (List (List UInt8))
  | _, [] => .ok []
  | 0, _ :: _ => .error .fatal
  | fuel + 1, len :: rest =>
    if rest.length < len.toNat then .error .fatal
    else do
      let parts ← keyPartsFrom fuel (rest.drop len.toNat)
      return rest.take len.toNat :: parts

def Key.keyParts (key : Key) : Result (List (List UInt8)) := keyPartsFrom key.keys.length key.keys

def Key.serialize (key : Key) (buf : List UInt8) (offset : ℕ) : Result (List UInt8 × ℕ) :=
  match key.version with
  | 1 => serializeBuffer 2 key.keys buf offset
  | 2 => do
    let (buf, offset) ← serializeInt 1 key.flags.toNat buf offset
    serializeBuffer 2 key.keys buf offset
  | _ => .error .fatal

def Key.unserialize (version : ℕ) (buf : List UInt8) (offset : ℕ) : Result (Key × ℕ) :=
  match version with
  | 1 => do
    let (keys, offset) ← unserializeBuffer 2 buf offset
    return (⟨1, 0, keys⟩, offset)
  | 2 => do
    let (flags, offset) ← unserializeInt 1 buf offset
    let (keys, offset) ← unserializeBuffer 2 buf offset
    return (⟨2, UInt8.ofNat flags, keys⟩, offset)
  | _ => .error .eprotonosupport

def Key.serialSize (key : Key) : Result ℕ :=
  match key.version with
  | 1 => Wire.serialSize 2 key.keys
  | 2 => do return 1 + (← Wire.serialSize 2 key.keys)
  | _ => .error .fatal

/-- `keyRefs` has the hash of each key with its place in `keys`. -/
structure WriteSet where
  version : ℕ
  keys : List UInt8
  keyRefs : List (ℕ × ℕ)
  data : List UInt8

def WriteSet.new (version : ℕ) : WriteSet := ⟨version, [], [], []⟩

def WriteSet.appendData (ws : WriteSet) (data : List UInt8) : WriteSet :=
  { ws with data := ws.data ++ data }

def WriteSet.hasKey (ws : WriteSet) (key : Key) : List ℕ → Result Bool
  | [] => .ok false
  | offset :: range => do
    let (cmp, _) ← Key.unserialize ws.version ws.keys offset
    if key.keys = cmp.keys ∧ key.flags = cmp.flags then return true
    else ws.hasKey key range

def WriteSet.appendKey (hash : List UInt8 → ℕ) (ws : WriteSet) (key : Key) : Result WriteSet := do
  let range := (ws.keyRefs.filter (·.1 = hash key.keys)).map Prod.snd
  if ← ws.hasKey key range then return ws
  else
    let keySize ← key.serialSize
    let offset := ws.keys.length
    let (keys, _) ← key.serialize (ws.keys ++ List.replicate keySize 0) offset
    return { ws with keys := keys, keyRefs := ws.keyRefs ++ [(hash key.keys, offset)] }

def scanKeys (version : ℕ) (buf : List UInt8) (segEnd : ℕ) : ℕ → ℕ → Result (List Key × ℕ)
  | 0, _ => .error .fatal
  | fuel + 1, offset =>
    if offset < segEnd then do
      let (key, offset) ← Key.unserialize version buf offset
      if offset = 0 then throw .fatal
      else
        let (ks, offset) ← scanKeys version buf segEnd fuel offset
        return (key :: ks, offset)
    else .ok ([], offset)

def WriteSet.getKeys (ws : WriteSet) : Result (List Key) := do
  let (ks, _) ← scanKeys ws.version ws.keys ws.keys.length (ws.keys.length + 1) 0
  return ks

def WriteSet.serialize (ws : WriteSet) (buf : List UInt8) (offset : ℕ) :
    Result (List UInt8 × ℕ) := do
  let (buf, offset) ← serializeBuffer 4 ws.keys buf offset
  serializeBuffer 4 ws.data buf offset

def WriteSet.segment (buf : List UInt8) (offset : ℕ) : Result (ℕ × ℕ) := do
  let (dataLen, offset) ← unserializeInt 4 buf offset
  if buf.length < offset + dataLen then throw .emsgsize else return (offset, dataLen)

/-- `WriteSet::keys`: the keys of a serialized write set and the offset behind them. -/
def WriteSet.scan (buf : List UInt8) (offset version : ℕ) : Result (List Key × ℕ) := do
  let (begin, len) ← WriteSet.segment buf offset
  scanKeys version buf (begin + len) (len + 1) begin

end Appstack.Galera.Wire
