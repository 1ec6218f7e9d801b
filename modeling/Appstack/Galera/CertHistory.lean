import Appstack.Lib.Latest
import Appstack.Galera.CertKeys

namespace Appstack.Galera

open Function List

/-- One of the four references: for exclusive or shared keys, and for every transaction
that has the entry or only for those that have it as a full key. -/
def KeyEntry.held (ke : KeyEntry) (full shared : Bool) : Option TrxHandle :=
  if shared then (if full then ke.refFullSharedTrx else ke.refSharedTrx)
  else (if full then ke.refFullTrx else ke.refTrx)

/-- Which of the references an entry of the key list sets. -/
def CertKey.covers (p : CertKey) (parts : Parts) (full shared : Bool) : Bool :=
  p.parts = parts ∧ p.shared = shared ∧ (full = true → p.fullKey = true)

variable {parts : Parts} {shared : Bool}

theorem CertKey.covers_iff {p : CertKey} {full : Bool} : p.covers parts full shared = true ↔
      p.parts = parts ∧ p.shared = shared ∧ (full = true → p.fullKey = true) :=
  decide_eq_true_iff

def TrxHandle.holds (trx : TrxHandle) (parts : Parts) (full shared : Bool) : Bool :=
  (certKeys trx.keys).any fun p => p.covers parts full shared

namespace KeyEntry

theorem exclusiveRef_eq (ke : KeyEntry) (full : Bool) :
    ke.exclusiveRef full = ke.held (!full) false := by
  cases full <;> rfl

theorem sharedRef_eq (ke : KeyEntry) (full : Bool) : ke.sharedRef full = ke.held (!full) true := by
  cases full <;> rfl

@[simp] theorem held_empty (full shared : Bool) : KeyEntry.empty.held full shared = none := by
  cases full <;> cases shared <;> rfl

end KeyEntry

theorem TrxHandle.holds_iff {trx : TrxHandle} {full : Bool} : trx.holds parts full shared = true ↔
      ∃ p ∈ certKeys trx.keys, p.parts = parts ∧ p.shared = shared ∧
        (full = true → p.fullKey = true) := by
  simp only [TrxHandle.holds, any_eq_true, CertKey.covers_iff]

theorem TrxHandle.holds_of_full {trx : TrxHandle} {full : Bool}
    (h : trx.holds parts true shared = true) : trx.holds parts full shared = true := by
  obtain ⟨p, hp, hparts, hshared, hfull⟩ := holds_iff.mp h
  exact holds_iff.mpr ⟨p, hp, hparts, hshared, fun _ => hfull rfl⟩

namespace Certification

section References
variable (trx : TrxHandle) (p : CertKey) (ke : KeyEntry)

theorem refKey_held (full shared : Bool) : (refKey trx p ke).held full shared =
      if p.shared = shared ∧ (full = true → p.fullKey = true) then some trx
      else ke.held full shared := by
  obtain ⟨parts, pfull, pshared⟩ := p
  cases full <;> cases shared <;> cases pfull <;> cases pshared <;> rfl

theorem refKeys_held (ix : CertIndex) (keyList : List CertKey) (parts : Parts)
    (full shared : Bool) :
    (refKeys ix trx keyList parts).held full shared =
      if keyList.any (fun p => p.covers parts full shared) then some trx
      else (ix parts).held full shared := by
  induction keyList generalizing ix with
  | nil => rfl
  | cons q keyList ih =>
    have hstep : refKeys ix trx (q :: keyList) =
        refKeys (update ix q.parts (refKey trx q (ix q.parts))) trx keyList := rfl
    rw [hstep, ih, any_cons]
    by_cases hrest : keyList.any (fun p => p.covers parts full shared) = true
    · rw [if_pos hrest, hrest, Bool.or_true, if_pos rfl]
    · rw [if_neg hrest, Bool.eq_false_iff.mpr hrest, Bool.or_false]
      by_cases hparts : q.parts = parts
      · subst hparts
        rw [update_self, refKey_held]
        simp only [CertKey.covers_iff, true_and]
      · rw [update_of_ne (Ne.symm hparts), if_neg]
        intro h
        exact hparts (CertKey.covers_iff.mp h).1

theorem purgeKey_held_partial (shared : Bool) :
    (purgeKey trx p ke).held false shared = ke.held false shared ∨
      (purgeKey trx p ke).held false shared = none ∧ ke.held false shared = some trx := by
  cases shared <;> cases hp : p.shared <;>
    simp only [purgeKey, KeyEntry.held, hp, KeyEntry.unref, KeyEntry.unrefShared] <;>
    grind [KeyEntry.empty]

theorem purgeKey_held_full (shared : Bool) :
    (purgeKey trx p ke).held true shared = ke.held true shared ∨
      (purgeKey trx p ke).held true shared = none ∧
        (ke.held true shared = some trx ∨ (purgeKey trx p ke).held false shared = none) := by
  cases shared <;> cases hp : p.shared <;>
    simp only [purgeKey, KeyEntry.held, hp, KeyEntry.unref, KeyEntry.unrefShared] <;>
    grind [KeyEntry.empty]

end References

/-- A reference is the latest transaction, unless that one is gone. -/
def Seen (gone : TrxHandle → Prop) (l r : Option TrxHandle) : Prop :=
  r = l ∨ r = none ∧ ∀ t, l = some t → gone t

section Seen
variable {gone gone' : TrxHandle → Prop} {l r : Option TrxHandle}

theorem Seen.gone_of_none (h : Seen gone l none) : ∀ t, l = some t → gone t := by
  intro t ht
  rcases h with h | h
  · rw [← h] at ht
    cases ht
  · exact h.2 t ht

theorem Seen.mono (h : Seen gone l r) (hg : ∀ t, l = some t → gone t → gone' t) :
    Seen gone' l r := by
  rcases h with h | ⟨h, hl⟩
  · exact Or.inl h
  · exact Or.inr ⟨h, fun t ht => hg t ht (hl t ht)⟩

variable {t : TrxHandle}

theorem Seen.eq_some (h : Seen gone l r) (hl : l = some t) (ht : ¬gone t) : r = some t := by
  rcases h with h | ⟨-, h⟩
  · exact h.trans hl
  · exact absurd (h t hl) ht

theorem Seen.eq_some_of_some (h : Seen gone l r) (hr : r = some t) : l = some t := by
  rcases h with h | ⟨h, -⟩
  · exact h.symm.trans hr
  · rw [h] at hr
    cases hr

end Seen

/-- The latest certified transaction that holds an entry. -/
def latestHolder (H : List TrxHandle) (parts : Parts) (full shared : Bool) : Option TrxHandle :=
  latest (fun t => t.holds parts full shared) H

def Sees (gone : TrxHandle → Prop) (H : List TrxHandle) (ix : CertIndex) : Prop :=
  ∀ parts full shared, Seen gone (latestHolder H parts full shared) ((ix parts).held full shared)

/-- Whoever comes before a transaction that is gone is gone as well. -/
def DownClosed (gone : TrxHandle → Prop) (H : List TrxHandle) : Prop :=
  ∀ t ∈ H, ∀ t' ∈ H, t.globalSeqno ≤ t'.globalSeqno → gone t' → gone t

abbrev Ascending (H : List TrxHandle) : Prop :=
  H.Pairwise fun t t' => t.globalSeqno < t'.globalSeqno

section Sees
variable {gone : TrxHandle → Prop} {H : List TrxHandle} {ix : CertIndex}

theorem latestHolder_full (hH : Ascending H) {parts : Parts} {shared : Bool} {t : TrxHandle}
    (ht : latestHolder H parts true shared = some t) :
    ∃ t', latestHolder H parts false shared = some t' ∧ t' ∈ H ∧
      t.globalSeqno ≤ t'.globalSeqno := by
  obtain ⟨hmem, hholds⟩ := mem_of_latest ht
  have hholder : t.holds parts false shared = true := TrxHandle.holds_of_full hholds
  obtain ⟨t', ht'⟩ := exists_latest (p := fun t => t.holds parts false shared) hmem hholder
  exact ⟨t', ht', (mem_of_latest ht').1, le_latest hH hmem hholder ht'⟩

theorem Sees.purgeForTrx (h : Sees gone H ix) (hH : Ascending H) (hdown : DownClosed gone H)
    {e : CertTrx} (he : gone e.trx) : Sees gone H (purgeForTrx ix e) := by
  unfold Certification.purgeForTrx
  induction e.certKeys generalizing ix with
  | nil => exact h
  | cons p keyList ih =>
    rw [foldl_cons]
    apply ih
    intro parts full shared
    by_cases hparts : parts = p.parts
    · subst hparts
      rw [update_self]
      have hholder : Seen gone (latestHolder H p.parts false shared)
          ((purgeKey e.trx p (ix p.parts)).held false shared) := by
        have hseen := h p.parts false shared
        rcases purgeKey_held_partial e.trx p (ix p.parts) shared with heq | ⟨hnone, hwas⟩
        · rw [heq]
          exact hseen
        · rw [hnone]
          refine Or.inr ⟨rfl, ?_⟩
          intro t ht
          rw [hseen.eq_some_of_some hwas] at ht
          exact Option.some.inj ht ▸ he
      cases full with
      | false => exact hholder
      | true =>
        have hseen := h p.parts true shared
        rcases purgeKey_held_full e.trx p (ix p.parts) shared with heq | ⟨hnone, hwas | hgone⟩
        · rw [heq]
          exact hseen
        · rw [hnone]
          refine Or.inr ⟨rfl, ?_⟩
          intro t ht
          rw [hseen.eq_some_of_some hwas] at ht
          exact Option.some.inj ht ▸ he
        · -- the whole entry has been erased, and the latest full holder is not the later one
          rw [hnone]
          refine Or.inr ⟨rfl, ?_⟩
          intro t ht
          obtain ⟨t', ht', hmem', hle⟩ := latestHolder_full hH ht
          rw [hgone] at hholder
          exact hdown t (mem_of_latest ht).1 t' hmem' hle (hholder.gone_of_none t' ht')
    · rw [update_of_ne hparts]
      exact h parts full shared

theorem Sees.purge (h : Sees gone H ix) (hH : Ascending H) (hdown : DownClosed gone H)
    {purged : List CertTrx} (hpurged : ∀ e ∈ purged, gone e.trx) :
    Sees gone H (purged.foldl Certification.purgeForTrx ix) := by
  induction purged generalizing ix with
  | nil => exact h
  | cons e purged ih =>
    rw [foldl_cons]
    apply ih
    · exact h.purgeForTrx hH hdown (hpurged e (.head _))
    · intro e' he'
      exact hpurged e' (.tail e he')

theorem Sees.refKeys (h : Sees gone H ix) (trx : TrxHandle) :
    Sees gone (H ++ [trx]) (refKeys ix trx (certKeys trx.keys)) := by
  intro parts full shared
  rw [latestHolder, latest_append_singleton, refKeys_held]
  change Seen gone (if trx.holds parts full shared then _ else _)
    (if trx.holds parts full shared then _ else _)
  by_cases hx : trx.holds parts full shared = true
  · rw [if_pos hx, if_pos hx]
    exact Or.inl rfl
  · rw [if_neg hx, if_neg hx]
    exact h parts full shared

end Sees

end Certification

end Appstack.Galera
