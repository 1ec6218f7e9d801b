import Mathlib

-- `certification.cpp` and `key_entry.hpp`. The index is a total function: a key that it does not have
-- is an entry without references. Transactions are compared as values where the code compares
-- pointers; two transactions never share a global seqno. Logging and statistics are left out.

namespace Appstack.Galera

abbrev Uuid := BitVec 128

abbrev KeyPart := List UInt8

abbrev Parts := List KeyPart

/-- `F_SHARED` is the only flag of a key. -/
structure Key where
  parts : Parts
  shared : Bool
  deriving DecidableEq

/-- What certification reads of a transaction. `keys` are the keys of its write sets in the
order of the buffer. -/
structure TrxHandle where
  version : ℤ
  sourceId : Uuid
  isolation : Bool
  paUnsafe : Bool
  keys : List Key
  globalSeqno : ℤ
  lastSeenSeqno : ℤ
  deriving DecidableEq

structure KeyEntry where
  refTrx : Option TrxHandle
  refFullTrx : Option TrxHandle
  refSharedTrx : Option TrxHandle
  refFullSharedTrx : Option TrxHandle

def KeyEntry.empty : KeyEntry := ⟨none, none, none, none⟩

namespace KeyEntry

def ref (ke : KeyEntry) (trx : TrxHandle) (fullKey : Bool) : KeyEntry :=
  { ke with
    refTrx := some trx
    refFullTrx := if fullKey then some trx else ke.refFullTrx }

def unref (ke : KeyEntry) (trx : TrxHandle) (fullKey : Bool) : KeyEntry :=
  { ke with
    refTrx := if ke.refTrx = some trx then none else ke.refTrx
    refFullTrx := if fullKey ∧ ke.refFullTrx = some trx then none else ke.refFullTrx }

def refShared (ke : KeyEntry) (trx : TrxHandle) (fullKey : Bool) : KeyEntry :=
  { ke with
    refSharedTrx := some trx
    refFullSharedTrx := if fullKey then some trx else ke.refFullSharedTrx }

def unrefShared (ke : KeyEntry) (trx : TrxHandle) (fullKey : Bool) : KeyEntry :=
  { ke with
    refSharedTrx := if ke.refSharedTrx = some trx then none else ke.refSharedTrx
    refFullSharedTrx :=
      if fullKey ∧ ke.refFullSharedTrx = some trx then none else ke.refFullSharedTrx }

end KeyEntry

abbrev CertIndex := Parts → KeyEntry

/-- An entry of `cert_keys_`: a key or a prefix of one, whether it is the full key, and
whether it is shared. -/
structure CertKey where
  parts : Parts
  fullKey : Bool
  shared : Bool

/-- Entries of `cert_keys_` are found by their key parts and flags. -/
def CertKey.same (p q : CertKey) : Bool := p.parts = q.parts ∧ p.shared = q.shared

/-- The reference is from another node or in isolation mode, and within cert range. -/
def conflictsWith (trx r : TrxHandle) : Bool :=
  (trx.sourceId ≠ r.sourceId ∨ r.isolation) ∧ r.globalSeqno > trx.lastSeenSeqno

/-- A full key matches any transaction, a partial one those that have it as a full key. -/
def KeyEntry.exclusiveRef (ke : KeyEntry) (fullKey : Bool) : Option TrxHandle :=
  if fullKey then ke.refTrx else ke.refFullTrx

def KeyEntry.sharedRef (ke : KeyEntry) (fullKey : Bool) : Option TrxHandle :=
  if fullKey then ke.refSharedTrx else ke.refFullSharedTrx

def seqnoOf (r : Option TrxHandle) : ℤ := (r.map TrxHandle.globalSeqno).getD (-1)

/-- Nothing for a conflict, otherwise the depends seqno after the match. -/
def certifyAndDependV1to2 (entry : KeyEntry) (trx : TrxHandle) (fullKey exclusiveKey : Bool)
    (dependsSeqno : ℤ) : Option ℤ :=
  if (entry.exclusiveRef fullKey).any (conflictsWith trx) then none
  else
    let refSeqno := seqnoOf (entry.exclusiveRef fullKey)
    -- exclusive keys must depend on shared refs as well
    let refSeqno :=
      if exclusiveKey then max (seqnoOf (entry.sharedRef fullKey)) refSeqno else refSeqno
    some (max dependsSeqno refSeqno)

def certifyPrefix (certIndex : CertIndex) (trx : TrxHandle) (storeKeys : Bool)
    (s : List CertKey × ℤ) (p : CertKey) : Option (List CertKey × ℤ) :=
  -- avoid certification for duplicates
  if storeKeys ∧ s.1.any p.same then some s
  else
    let keyList := if storeKeys then s.1 ++ [p] else s.1
    -- certification is skipped for isolated trxs, only the key list is populated
    if trx.isolation then some (keyList, s.2)
    else
      match certifyAndDependV1to2 (certIndex p.parts) trx p.fullKey (!p.shared) s.2 with
      | none => none
      | some dependsSeqno => some (keyList, dependsSeqno)

def Key.prefixes (key : Key) : List CertKey :=
  key.parts.inits.map fun parts => ⟨parts, parts.length = key.parts.length, key.shared⟩

def certifyV1to2 (certIndex : CertIndex) (trx : TrxHandle) (storeKeys : Bool)
    (s : List CertKey × ℤ) (key : Key) : Option (List CertKey × ℤ) :=
  key.prefixes.foldlM (certifyPrefix certIndex trx storeKeys) s

/-- An element of `trx_map_`. The depends seqno of a transaction that failed is `-1`, and its
keys are not looked at again. -/
structure CertTrx where
  trx : TrxHandle
  dependsSeqno : ℤ
  certKeys : List CertKey

structure Certification where
  version : ℤ
  /-- in the order of the global seqnos -/
  trxMap : List CertTrx
  certIndex : CertIndex
  depsSet : List ℤ
  initialPosition : ℤ
  position : ℤ
  safeToDiscardSeqno : ℤ
  lastPaUnsafe : ℤ
  maxLength : ℤ
  maxLengthCheck : ℕ

inductive TestResult where
  | ok
  | failed
  deriving DecidableEq

inductive CertError where
  | versionNotImplemented
  | versionNotSupported
  | duplicateTrxEntry

namespace Certification

def create (maxLength : ℤ) (maxLengthCheck : ℕ) : Certification where
  version := -1
  trxMap := []
  certIndex := fun _ => .empty
  depsSet := []
  initialPosition := -1
  position := -1
  safeToDiscardSeqno := -1
  lastPaUnsafe := -1
  maxLength := maxLength
  maxLengthCheck := maxLengthCheck

def maxLengthDefault : ℤ := 16384

def maxLengthCheckDefault : ℕ := 127

def initialDepends (c : Certification) (trx : TrxHandle) : ℤ :=
  if trx.isolation ∨ trx.paUnsafe then trx.globalSeqno - 1
  else
    match c.trxMap with
    | [] => trx.globalSeqno - 1
    | e :: _ => e.trx.globalSeqno - 1

def refKey (trx : TrxHandle) (p : CertKey) (ke : KeyEntry) : KeyEntry :=
  if p.shared then ke.refShared trx p.fullKey else ke.ref trx p.fullKey

def refKeys (certIndex : CertIndex) (trx : TrxHandle) (keyList : List CertKey) : CertIndex :=
  keyList.foldl (fun ix p => Function.update ix p.parts (refKey trx p (ix p.parts))) certIndex

/-- The entries that a failed test has created are taken out of the index again. -/
def doTestV1to2 (c : Certification) (trx : TrxHandle) (storeKeys : Bool) :
    TestResult × CertTrx × Certification :=
  match trx.keys.foldlM (certifyV1to2 c.certIndex trx storeKeys) ([], c.initialDepends trx) with
  | none => (.failed, ⟨trx, -1, []⟩, c)
  | some (keyList, dependsSeqno) =>
    let e : CertTrx := ⟨trx, max dependsSeqno c.lastPaUnsafe, keyList⟩
    if storeKeys then (.ok, e, { c with
      certIndex := refKeys c.certIndex trx keyList
      lastPaUnsafe := if trx.paUnsafe then trx.globalSeqno else c.lastPaUnsafe })
    else (.ok, e, c)

/-- `test` and `do_test`: a transaction that fails has no depends seqno. -/
def test (c : Certification) (trx : TrxHandle) (storeKeys : Bool) :
    Except CertError (TestResult × CertTrx × Certification) :=
  if trx.version ≠ c.version then .ok (.failed, ⟨trx, -1, []⟩, c)
  else if trx.lastSeenSeqno < c.initialPosition ∨
      trx.globalSeqno - trx.lastSeenSeqno > c.maxLength then .ok (.failed, ⟨trx, -1, []⟩, c)
  else if c.version = 1 ∨ c.version = 2 then .ok (c.doTestV1to2 trx storeKeys)
  else .error .versionNotImplemented

def purgeKey (trx : TrxHandle) (p : CertKey) (ke : KeyEntry) : KeyEntry :=
  let ke :=
    if p.shared = false ∧ (ke.refTrx = some trx ∨ ke.refFullTrx = some trx) then
      ke.unref trx p.fullKey
    else ke
  let ke :=
    if p.shared = true ∧ (ke.refSharedTrx = some trx ∨ ke.refFullSharedTrx = some trx) then
      ke.unrefShared trx p.fullKey
    else ke
  -- the entry is erased, whatever its full references are
  if ke.refTrx = none ∧ ke.refSharedTrx = none then .empty else ke

def purgeForTrx (certIndex : CertIndex) (e : CertTrx) : CertIndex :=
  e.certKeys.foldl (fun ix p => Function.update ix p.parts (purgeKey e.trx p (ix p.parts)))
    certIndex

def getSafeToDiscardSeqno (c : Certification) : ℤ :=
  match c.depsSet.min? with
  | none => c.safeToDiscardSeqno
  | some s => s - 1

/-- `purge_trxs_upto_`: only transactions that passed the test are in the index. -/
def purgeTrxsUptoUnprotected (c : Certification) (seqno : ℤ) : Certification :=
  let purged := c.trxMap.takeWhile fun e => e.trx.globalSeqno < seqno
  { c with
    certIndex := (purged.filter fun e => e.dependsSeqno > -1).foldl purgeForTrx c.certIndex
    trxMap := c.trxMap.dropWhile fun e => e.trx.globalSeqno < seqno }

def purgeTrxsUpto (c : Certification) (seqno : ℤ) : Certification :=
  c.purgeTrxsUptoUnprotected (min seqno c.getSafeToDiscardSeqno)

/-- The index is trimmed at every `maxLengthCheck + 1`-th seqno when the map is too long. A
negative `max_length_` is a large number when it is compared with the size of the map. -/
def trim (c : Certification) : Certification :=
  if c.position.toNat &&& c.maxLengthCheck = 0 ∧ 0 ≤ c.maxLength ∧
      c.maxLength < c.trxMap.length then
    c.purgeTrxsUptoUnprotected (min (c.position - c.maxLength) c.getSafeToDiscardSeqno)
  else c

def appendTrx (c : Certification) (trx : TrxHandle) :
    Except CertError (TestResult × Certification) :=
  let c := trim { c with position := trx.globalSeqno }
  match c.test trx true with
  | .error e => .error e
  | .ok (res, e, c) =>
    if c.trxMap.any fun e => e.trx.globalSeqno = trx.globalSeqno then .error .duplicateTrxEntry
    else .ok (res, { c with
      trxMap := c.trxMap ++ [e]
      depsSet := trx.lastSeenSeqno :: c.depsSet })

def setTrxCommitted (c : Certification) (trx : TrxHandle) : Certification :=
  { c with
    safeToDiscardSeqno :=
      if c.depsSet.length = 1 then trx.lastSeenSeqno else c.safeToDiscardSeqno
    depsSet := c.depsSet.erase trx.lastSeenSeqno }

/-- A position below the current one drops the index without looking at it. Version `-1` is
used before the protocol version is known. -/
def assignInitialPosition (c : Certification) (seqno version : ℤ) :
    Except CertError Certification :=
  if version = -1 ∨ version = 1 ∨ version = 2 then
    .ok { c with
      certIndex :=
        if seqno ≥ c.position then
          (c.trxMap.filter fun e => e.dependsSeqno > -1).foldl purgeForTrx c.certIndex
        else fun _ => .empty
      trxMap := []
      initialPosition := seqno
      position := seqno
      safeToDiscardSeqno := seqno
      lastPaUnsafe := seqno
      version := version }
  else .error .versionNotSupported

end Certification

end Appstack.Galera
