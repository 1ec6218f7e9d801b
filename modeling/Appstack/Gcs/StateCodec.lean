import Appstack.Lib.Layout
import Appstack.Gcs.StateMsg

-- The wire format of `gcs_state_msg.c`, with the machine types of `gcs_state_msg_t`. The host is
-- little endian. A C string is its bytes without the terminating zero.

namespace Appstack.Gcs

open Layout BitVec

/-- Bytes without a zero among them, as `strlen` and `strcpy` see them. -/
abbrev CBytes := { bs : List UInt8 // (0 : UInt8) ∉ bs }

@[ext] structure RawStateMsg where
  stateUuid : Uuid
  groupUuid : Uuid
  primUuid : Uuid
  primSeqno : BitVec 64
  received : BitVec 64
  primJoined : BitVec 64
  primState : NodeState
  currentState : NodeState
  name : CBytes
  incAddr : CBytes
  version : ℤ
  gcsProtoVer : ℤ
  replProtoVer : ℤ
  applProtoVer : ℤ
  flags : UInt8
  deriving DecidableEq

namespace RawStateMsg

/-- `gcs_state_msg_create`, of the arguments other than the version -/
def create (m : RawStateMsg) : Option RawStateMsg :=
  if protoInRange m.gcsProtoVer ∧ protoInRange m.replProtoVer ∧ protoInRange m.applProtoVer
  then some { m with version := stateMsgVer }
  else none

def len (m : RawStateMsg) : ℕ :=
  1 + 1 + 1 + 1 + 1 + 1 + 2 + 16 + 16 + 16 + 8 + 8 +
    (m.name.val.length + 1) + (m.incAddr.val.length + 1) + 1

def atVersion : ℕ := 0

def atFlags : ℕ := atVersion + 1

def atGcsProtoVer : ℕ := atFlags + 1

def atReplProtoVer : ℕ := atGcsProtoVer + 1

def atPrimState : ℕ := atReplProtoVer + 1

def atCurrState : ℕ := atPrimState + 1

def atPrimJoined : ℕ := atCurrState + 1

def atStateUuid : ℕ := atPrimJoined + 2

def atGroupUuid : ℕ := atStateUuid + 16

def atPrimUuid : ℕ := atGroupUuid + 16

def atReceived : ℕ := atPrimUuid + 16

def atPrimSeqno : ℕ := atReceived + 8

def atName : ℕ := atPrimSeqno + 8

def toByte (v : ℤ) : UInt8 := UInt8.ofInt v

/-- A byte as the `int8_t` it is read as. -/
def ofByte (b : UInt8) : ℤ := b.toInt8.toInt

def uuidBytes (u : Uuid) : List UInt8 := BigEndian.encode 16 u.toNat

/-- `gcs_state_msg_write`: the buffer afterwards and the length. -/
def write (m : RawStateMsg) (buf : List UInt8) : List UInt8 × ℕ :=
  let atIncAddr := atName + m.name.val.length + 1
  let atApplProtoVer := atIncAddr + m.incAddr.val.length + 1
  let buf := store buf atVersion [toByte stateMsgVer]
  let buf := store buf atFlags [m.flags]
  let buf := store buf atGcsProtoVer [toByte m.gcsProtoVer]
  let buf := store buf atReplProtoVer [toByte m.replProtoVer]
  let buf := store buf atPrimState [toByte m.primState.code]
  let buf := store buf atCurrState [toByte m.currentState.code]
  let buf := store buf atPrimJoined (littleEndian 2 (m.primJoined.setWidth 16).toNat)
  let buf := store buf atStateUuid (uuidBytes m.stateUuid)
  let buf := store buf atGroupUuid (uuidBytes m.groupUuid)
  let buf := store buf atPrimUuid (uuidBytes m.primUuid)
  let buf := store buf atReceived (littleEndian 8 m.received.toNat)
  let buf := store buf atPrimSeqno (littleEndian 8 m.primSeqno.toNat)
  let buf := store buf atName (m.name.val ++ [0])
  let buf := store buf atIncAddr (m.incAddr.val ++ [0])
  let buf := store buf atApplProtoVer [toByte m.applProtoVer]
  (buf, atApplProtoVer + 1)

/-- Why nothing is read: memory behind the buffer would be looked at, a state is none of the
enumeration, or `gcs_state_msg_create` refuses a protocol version. -/
inductive ReadError where
  | overrun
  | badState
  | null
  deriving DecidableEq

def nodeState (v : ℤ) : Except ReadError NodeState :=
  match [NodeState.nonPrim, .prim, .joiner, .donor, .joined, .synced].find? (·.code = v) with
  | some st => .ok st
  | none => .error .badState

def loadBytes (buf : List UInt8) (off n : ℕ) : Except ReadError (List UInt8) :=
  match load buf off n with
  | some bs => .ok bs
  | none => .error .overrun

def loadByte (buf : List UInt8) (off : ℕ) : Except ReadError UInt8 :=
  match buf[off]? with
  | some b => .ok b
  | none => .error .overrun

def loadString (buf : List UInt8) (off : ℕ) : Except ReadError CBytes :=
  match h : loadUntil 0 buf off with
  | some bs => .ok ⟨bs, not_mem_of_loadUntil h⟩
  | none => .error .overrun

def loadUuid (buf : List UInt8) (off : ℕ) : Except ReadError Uuid := do
  return BitVec.ofNat 128 (BigEndian.decode (← loadBytes buf off 16))

def loadInt (buf : List UInt8) (off w : ℕ) : Except ReadError (BitVec (8 * w)) := do
  return BitVec.ofNat _ (ofLittleEndian (← loadBytes buf off w))

/-- The field is there from version 1 on. -/
def loadApplProtoVer (version : ℤ) (buf : List UInt8) (off : ℕ) : Except ReadError ℤ :=
  if 1 ≤ version then (loadByte buf off).map fun b => (b.toNat : ℤ) else .ok 0

def read (buf : List UInt8) : Except ReadError RawStateMsg := do
  let name ← loadString buf atName
  let atIncAddr := atName + name.val.length + 1
  let incAddr ← loadString buf atIncAddr
  let version := ofByte (← loadByte buf atVersion)
  let applProtoVer ← loadApplProtoVer version buf (atIncAddr + incAddr.val.length + 1)
  let args : RawStateMsg :=
    { stateUuid := ← loadUuid buf atStateUuid
      groupUuid := ← loadUuid buf atGroupUuid
      primUuid := ← loadUuid buf atPrimUuid
      primSeqno := ← loadInt buf atPrimSeqno 8
      received := ← loadInt buf atReceived 8
      primJoined := (← loadInt buf atPrimJoined 2).signExtend 64
      primState := ← nodeState (ofByte (← loadByte buf atPrimState))
      currentState := ← nodeState (ofByte (← loadByte buf atCurrState))
      name := name
      incAddr := incAddr
      version := version
      gcsProtoVer := ofByte (← loadByte buf atGcsProtoVer)
      replProtoVer := ofByte (← loadByte buf atReplProtoVer)
      applProtoVer := applProtoVer
      flags := ← loadByte buf atFlags }
  match args.create with
  | some ret => return { ret with version := version }
  | none => throw .null

/-- The fields of the wire format, one behind the other. -/
def fields (m : RawStateMsg) : List (List UInt8) :=
  [[toByte stateMsgVer], [m.flags], [toByte m.gcsProtoVer], [toByte m.replProtoVer],
    [toByte m.primState.code], [toByte m.currentState.code],
    littleEndian 2 (m.primJoined.setWidth 16).toNat,
    uuidBytes m.stateUuid, uuidBytes m.groupUuid, uuidBytes m.primUuid,
    littleEndian 8 m.received.toNat, littleEndian 8 m.primSeqno.toNat,
    m.name.val ++ [0], m.incAddr.val ++ [0], [toByte m.applProtoVer]]

@[simp] theorem length_uuidBytes (u : Uuid) : (uuidBytes u).length = 16 :=
  BigEndian.length_encode 16 _

variable (m : RawStateMsg) (buf rest : List UInt8)

theorem length_fields : m.fields.flatten.length = m.len := by
  simp [fields, len]
  omega

theorem write_fst : (m.write buf).1 = m.fields.flatten ++ buf.drop m.len := by
  simp only [write, atFlags, atGcsProtoVer, atReplProtoVer, atPrimState, atCurrState,
    atPrimJoined, atStateUuid, atGroupUuid, atPrimUuid, atReceived, atPrimSeqno, atName, atVersion]
  rw [store_zero, store_append (by simp), store_append (by simp), store_append (by simp),
    store_append (by simp), store_append (by simp), store_append (by simp),
    store_append (by simp), store_append (by simp), store_append (by simp),
    store_append (by simp), store_append (by simp), store_append (by simp),
    store_append (by simp; omega), store_append (by simp; omega)]
  simp [fields, len, Nat.add_assoc]

theorem write_snd : (m.write buf).2 = m.len := by
  simp only [write, len, atFlags, atGcsProtoVer, atReplProtoVer, atPrimState, atCurrState,
    atPrimJoined, atStateUuid, atGroupUuid, atPrimUuid, atReceived, atPrimSeqno, atName, atVersion]
  omega

variable {m buf rest} {off : ℕ} {fs : List (List UInt8)}

theorem loadByte_flatten {i : ℕ} {b : UInt8} (hf : fs[i]? = some [b])
    (hoff : (fs.take i).flatten.length = off) : loadByte (fs.flatten ++ rest) off = .ok b := by
  rw [loadByte, getElem?_flatten rest hf hoff]

theorem loadString_flatten {i : ℕ} {bs : CBytes}
    (hf : fs[i]? = some (bs.val ++ [0])) (hoff : (fs.take i).flatten.length = off) :
    loadString (fs.flatten ++ rest) off = .ok bs := by
  have h := loadUntil_flatten rest hf hoff bs.property
  unfold loadString
  split
  next bs' hbs' =>
    rw [h] at hbs'
    cases hbs'
    rfl
  next hnone =>
    rw [h] at hnone
    cases hnone

theorem loadUuid_flatten {i : ℕ} {u : Uuid}
    (hf : fs[i]? = some (uuidBytes u)) (hoff : (fs.take i).flatten.length = off) :
    loadUuid (fs.flatten ++ rest) off = .ok u := by
  have hload := load_flatten rest hf hoff (length_uuidBytes u)
  have hdec : BigEndian.decode (uuidBytes u) = u.toNat :=
    BigEndian.decode_encode_of_lt (by simpa using u.isLt)
  rw [loadUuid, loadBytes, hload]
  simp only [bind, Except.bind, pure, Except.pure, hdec, ofNat_toNat, setWidth_eq]

theorem loadInt_flatten {i w : ℕ} {x : BitVec (8 * w)}
    (hf : fs[i]? = some (littleEndian w x.toNat)) (hoff : (fs.take i).flatten.length = off) :
    loadInt (fs.flatten ++ rest) off w = .ok x := by
  have hload := load_flatten rest hf hoff (length_littleEndian w _)
  have hlt : x.toNat < 256 ^ w := by
    have h := x.isLt
    rwa [pow_mul] at h
  rw [loadInt, loadBytes, hload]
  simp only [bind, Except.bind, pure, Except.pure, ofLittleEndian_littleEndian,
    Nat.mod_eq_of_lt hlt, ofNat_toNat, setWidth_eq]

@[simp] theorem nodeState_code (st : NodeState) :
    nodeState (ofByte (toByte st.code)) = .ok st := by
  cases st <;> rfl

theorem atStateUuid_eq : atStateUuid = 8 := rfl

theorem atName_eq : atName = 72 := rfl

/-- A message written and read back: the two older protocol versions come out of signed bytes,
and the number of joined nodes out of 16 bits. -/
def readBack (m : RawStateMsg) : RawStateMsg :=
  { m with
    version := stateMsgVer
    gcsProtoVer := ofByte (toByte m.gcsProtoVer)
    replProtoVer := ofByte (toByte m.replProtoVer)
    applProtoVer := (toByte m.applProtoVer).toNat
    primJoined := (m.primJoined.setWidth 16).signExtend 64 }

theorem read_fields (m : RawStateMsg) (rest : List UInt8) : read (m.fields.flatten ++ rest) =
      match m.readBack.create with
      | some ret => .ok { ret with version := stateMsgVer }
      | none => .error .null := by
  have hname : loadString (m.fields.flatten ++ rest) atName = .ok m.name :=
    loadString_flatten (i := 12) rfl (by simp [fields, atName_eq])
  have haddr : loadString (m.fields.flatten ++ rest) (atName + m.name.val.length + 1) =
      .ok m.incAddr := loadString_flatten (i := 13) rfl (by simp [fields, atName_eq]; omega)
  have happl : loadByte (m.fields.flatten ++ rest)
      (atName + m.name.val.length + 1 + m.incAddr.val.length + 1) = .ok (toByte m.applProtoVer) :=
    loadByte_flatten (i := 14) rfl (by simp [fields, atName_eq]; omega)
  have hversion : loadByte (m.fields.flatten ++ rest) atVersion = .ok (toByte stateMsgVer) :=
    loadByte_flatten (i := 0) rfl rfl
  have hflags : loadByte (m.fields.flatten ++ rest) atFlags = .ok m.flags :=
    loadByte_flatten (i := 1) rfl rfl
  have hgcs : loadByte (m.fields.flatten ++ rest) atGcsProtoVer = .ok (toByte m.gcsProtoVer) :=
    loadByte_flatten (i := 2) rfl rfl
  have hrepl : loadByte (m.fields.flatten ++ rest) atReplProtoVer = .ok (toByte m.replProtoVer) :=
    loadByte_flatten (i := 3) rfl rfl
  have hprim : loadByte (m.fields.flatten ++ rest) atPrimState = .ok (toByte m.primState.code) :=
    loadByte_flatten (i := 4) rfl rfl
  have hcurr : loadByte (m.fields.flatten ++ rest) atCurrState =
      .ok (toByte m.currentState.code) := loadByte_flatten (i := 5) rfl rfl
  have hjoined : loadInt (m.fields.flatten ++ rest) atPrimJoined 2 =
      .ok (m.primJoined.setWidth 16) := loadInt_flatten (i := 6) rfl rfl
  have hstate : loadUuid (m.fields.flatten ++ rest) atStateUuid = .ok m.stateUuid :=
    loadUuid_flatten (i := 7) rfl (by simp [fields, atStateUuid_eq])
  have hgroup : loadUuid (m.fields.flatten ++ rest) atGroupUuid = .ok m.groupUuid :=
    loadUuid_flatten (i := 8) rfl (by simp [fields, atGroupUuid, atStateUuid_eq])
  have hpuuid : loadUuid (m.fields.flatten ++ rest) atPrimUuid = .ok m.primUuid :=
    loadUuid_flatten (i := 9) rfl (by simp [fields, atPrimUuid, atGroupUuid, atStateUuid_eq])
  have hreceived : loadInt (m.fields.flatten ++ rest) atReceived 8 = .ok m.received :=
    loadInt_flatten (i := 10) rfl
      (by simp [fields, atReceived, atPrimUuid, atGroupUuid, atStateUuid_eq])
  have hseqno : loadInt (m.fields.flatten ++ rest) atPrimSeqno 8 = .ok m.primSeqno :=
    loadInt_flatten (i := 11) rfl
      (by simp [fields, atPrimSeqno, atReceived, atPrimUuid, atGroupUuid, atStateUuid_eq])
  have hver : ofByte (toByte stateMsgVer) = stateMsgVer := rfl
  have hver1 : (1 : ℤ) ≤ stateMsgVer := by decide
  simp only [read, loadApplProtoVer, hname, haddr, happl, hversion, hflags, hgcs, hrepl, hprim,
    hcurr, hjoined, hstate, hgroup, hpuuid, hreceived, hseqno, hver, if_pos hver1, nodeState_code,
    bind, Except.bind, pure, Except.pure, Except.map]
  rfl

theorem ofByte_toByte {v : ℤ} (h0 : 0 ≤ v) (h : v ≤ 255) :
    ofByte (toByte v) = if v ≤ 127 then v else v - 256 := by
  lift v to ℕ using h0
  have hall : ∀ n : Fin 256, ofByte (toByte (n.val : ℤ)) =
      if (n.val : ℤ) ≤ 127 then (n.val : ℤ) else n.val - 256 := by decide +kernel
  exact hall ⟨v, by omega⟩

theorem toNat_toByte {v : ℤ} (h0 : 0 ≤ v) (h : v ≤ 255) : ((toByte v).toNat : ℤ) = v := by
  lift v to ℕ using h0
  have hall : ∀ n : Fin 256, (toByte (n.val : ℤ)).toNat = n.val := by decide +kernel
  exact_mod_cast hall ⟨v, by omega⟩

theorem signExtend_setWidth_eq_iff (x : BitVec 64) :
    (x.setWidth 16).signExtend 64 = x ↔ -2 ^ 15 ≤ x.toInt ∧ x.toInt < 2 ^ 15 := by
  have hcond := toInt_eq_toNat_cond x
  have hdvd : ((2 ^ 16 : ℕ) : ℤ) ∣ x.toInt - x.toNat := by
    split_ifs at hcond <;> omega
  rw [← toInt_inj, toInt_signExtend_of_le (by omega), toInt_setWidth, Int.bmod_eq_iff (by norm_num)]
  omega

theorem create_eq_some_iff {args m : RawStateMsg} : args.create = some m ↔
    (protoInRange args.gcsProtoVer ∧ protoInRange args.replProtoVer ∧
      protoInRange args.applProtoVer) ∧ { args with version := stateMsgVer } = m := by
  unfold create
  split_ifs with h <;> simp [h]

/-- The fields that the slots of the wire format can hold. -/
def FitsSlots (m : RawStateMsg) : Prop :=
  m.gcsProtoVer ≤ 127 ∧ m.replProtoVer ≤ 127 ∧
    -2 ^ 15 ≤ m.primJoined.toInt ∧ m.primJoined.toInt < 2 ^ 15

/-- A created message takes exactly the reported length of any buffer with room for it, and is
read back from there exactly if its fields fit their slots. -/
theorem read_write_iff {args m : RawStateMsg} (h : args.create = some m) :
    ∃ bs : List UInt8, bs.length = m.len ∧ ∀ buf, m.len ≤ buf.length →
      m.write buf = (bs ++ buf.drop m.len, m.len) ∧
      (read (m.write buf).1 = .ok m ↔ m.FitsSlots) := by
  obtain ⟨⟨hgcs, hrepl, happl⟩, rfl⟩ := create_eq_some_iff.mp h
  simp only [protoInRange, decide_eq_true_eq] at hgcs hrepl happl
  set m : RawStateMsg := { args with version := stateMsgVer } with hm
  refine ⟨m.fields.flatten, m.length_fields, fun buf _ => ⟨?_, ?_⟩⟩
  · exact Prod.ext (m.write_fst buf) (m.write_snd buf)
  rw [write_fst, read_fields]
  have hgcs' : m.readBack.gcsProtoVer = if m.gcsProtoVer ≤ 127 then m.gcsProtoVer
      else m.gcsProtoVer - 256 := ofByte_toByte hgcs.1 hgcs.2
  have hrepl' : m.readBack.replProtoVer = if m.replProtoVer ≤ 127 then m.replProtoVer
      else m.replProtoVer - 256 := ofByte_toByte hrepl.1 hrepl.2
  have happl' : m.readBack.applProtoVer = m.applProtoVer := toNat_toByte happl.1 happl.2
  constructor
  · intro hread
    split at hread
    next ret hret =>
      obtain ⟨-, rfl⟩ := create_eq_some_iff.mp hret
      have heq : m.readBack = m := Except.ok.inj hread
      rw [heq] at hgcs' hrepl'
      refine ⟨?_, ?_, (signExtend_setWidth_eq_iff m.primJoined).mp (congrArg primJoined heq)⟩
      · split_ifs at hgcs' <;> omega
      · split_ifs at hrepl' <;> omega
    · cases hread
  · rintro ⟨hg, hr, hj⟩
    have heq : m.readBack = m := by
      rw [if_pos hg] at hgcs'
      rw [if_pos hr] at hrepl'
      have hjoined : m.readBack.primJoined = m.primJoined :=
        (signExtend_setWidth_eq_iff m.primJoined).mpr hj
      exact RawStateMsg.ext rfl rfl rfl rfl rfl hjoined rfl rfl rfl rfl rfl hgcs' hrepl' happl' rfl
    have hcreate : m.create = some m := by
      rw [create_eq_some_iff]
      simp only [protoInRange, decide_eq_true_eq]
      exact ⟨⟨hgcs, hrepl, happl⟩, rfl⟩
    rw [heq, hcreate]

/-- A message of an older node: the protocol versions 4 and 2, of a component of three. -/
theorem read_write_three_joined : let args : RawStateMsg :=
      { stateUuid := 7, groupUuid := 1, primUuid := 3, primSeqno := 5, received := 10
        primJoined := 3, primState := .synced, currentState := .prim
        name := ⟨[110, 49], by decide⟩, incAddr := ⟨[], by decide⟩, version := 0
        gcsProtoVer := 0, replProtoVer := 4, applProtoVer := 2, flags := 6 }
    ∃ m, args.create = some m ∧ read (m.write (List.replicate m.len 0)).1 = .ok m := by
  intro args
  have hargs : args.create = some { args with version := stateMsgVer } := rfl
  refine ⟨_, hargs, ?_⟩
  obtain ⟨bs, -, hbs⟩ := read_write_iff hargs
  exact (hbs _ (by simp)).2.mpr (by unfold FitsSlots; decide)

/-- The replication protocol 128 is created and written, and refused by the reader. -/
theorem read_write_proto_128 : let args : RawStateMsg :=
      { stateUuid := 7, groupUuid := 1, primUuid := 3, primSeqno := 5, received := 10
        primJoined := 3, primState := .synced, currentState := .prim
        name := ⟨[110, 49], by decide⟩, incAddr := ⟨[], by decide⟩, version := 0
        gcsProtoVer := 0, replProtoVer := 128, applProtoVer := 2, flags := 6 }
    ∃ m, args.create = some m ∧ read (m.write (List.replicate m.len 0)).1 = .error .null := by
  refine ⟨_, rfl, ?_⟩
  decide +kernel

end RawStateMsg

end Appstack.Gcs
