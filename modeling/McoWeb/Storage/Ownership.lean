import Mathlib.Data.Int.Order.Basic
import McoWeb.Foundation.Board
import McoWeb.Storage.Frame

/-! # Lookups as steps of a board

Seen from outside, the slot table is a board of expiring entries: a slot with a
value, standing at the primary position of its hash, is an entry owned by its
key, and a slot that is marked or whose length field disagrees with its value is
dead. A completed lookup is a step of that board as long as it does not replace
the key of an entry. The view of the keys is a parameter, so that what holds
without regard to keys holds of every lookup.
-/

namespace McoWeb.Storage

open Foundation

/-- A view of slot keys, with what a verified slot tells about the key asked for. -/
structure KeyView (κ : Type) where
  owner : YacKvKey → κ
  asked : Key → κ
  owner_ttl : ∀ k ttl, owner { k with ttl := ttl } = owner k
  owner_verified : ∀ (s : YacStorage) (key : Key) (a : ValAddr), s.Verifies key a →
    owner (s.slots (s.primary key)) = asked key

/-- Keys are not looked at. -/
def KeyView.blind : KeyView Unit := ⟨fun _ => (), fun _ => (), fun _ _ => rfl, fun _ _ _ _ => rfl⟩

/-- Keys are compared by length and bytes. -/
def KeyView.exact : KeyView (UInt32 × List UInt8) where
  owner k := (k.klen, k.key.bytes.take k.klen.toNat)
  asked key := (key.len, key.bytes)
  owner_ttl _ _ := rfl
  owner_verified s key a hverifies := by
    have hklen := hverifies.hash_len.2
    have hholds := hverifies.holds
    rw [hklen, Key.len_toNat]
    exact Prod.ext rfl hholds

/-- The slot stands at the primary position of its own hash. -/
def YacStorage.AtHome (s : YacStorage) (p : Nat) : Prop := s.slotIndex (s.slots p).h = p

instance (s : YacStorage) (p : Nat) : Decidable (s.AtHome p) :=
  inferInstanceAs (Decidable (_ = _))

theorem YacStorage.Verifies.atHome {s : YacStorage} {key : Key} {a : ValAddr}
    (hverifies : s.Verifies key a) : s.AtHome (s.primary key) := by
  rw [AtHome, hverifies.hash_len.1]
  rfl

/-- What a hit on a slot with its value at `a` returns. -/
def YacStorage.entryOut (s : YacStorage) (p : Nat) (a : ValAddr) : FindOut :=
  ⟨(s.vals a).read (s.slots p).vlen.toNat ++ [0], (s.slots p).vlen, (s.slots p).flag⟩

/-- The deadline a slot and the length of its value stand for. -/
def slotDeadline (k : YacKvKey) (len : UInt32) : Deadline Int :=
  if k.ttl = 1 ∨ k.len ≠ len then .passed
  else if k.ttl = 0 then .never
  else .expires k.ttl.toNat

/-- The board of a table under a view of its keys. -/
def KeyView.board {κ : Type} (view : KeyView κ) (s : YacStorage) : Board Nat κ FindOut Int where
  entry p :=
    if s.AtHome p then (s.slots p).val.map fun a => (view.owner (s.slots p), s.entryOut p a)
    else none
  deadline p := match (s.slots p).val with
    | none => .passed
    | some a => slotDeadline (s.slots p) (s.vals a).len

/-- The answer of a lookup as an answer of the board. -/
def boardAnswer (answer : FindAnswer) : Answer Nat FindOut :=
  match answer.exit with
  | .absent | .corrupt _ => .miss
  | .refused p | .expired p => .dead p
  | .found p => .served p answer.out

theorem slotDeadline_live_iff (k : YacKvKey) (len : UInt32) (now : Int) :
    (slotDeadline k len).Live now ↔
      k.ttl ≠ 1 ∧ k.len = len ∧ (k.ttl ≠ 0 → now < k.ttl.toNat) := by
  unfold slotDeadline
  split_ifs with hpassed hnever
  · simp only [Deadline.Live, false_iff]
    tauto
  · simp only [Deadline.Live, true_iff]
    tauto
  · simp only [Deadline.Live]
    tauto

namespace KeyView

variable {κ : Type} (view : KeyView κ)

/-- The entries of the board depend on the stored data only, and on keys only
through their owners. -/
theorem board_entry_ext {s s' : YacStorage} (hmask : s'.slotsMask = s.slotsMask)
    (hslots : ∀ p, s'.slots p =
      { s.slots p with ttl := (s'.slots p).ttl, key := (s'.slots p).key })
    (howner : ∀ p, s.AtHome p → view.owner (s'.slots p) = view.owner (s.slots p))
    (hvals : ∀ a, (s'.vals a).data = (s.vals a).data) :
    (view.board s').entry = (view.board s).entry := by
  have hhome : ∀ p, s'.AtHome p ↔ s.AtHome p := by
    intro p
    simp only [YacStorage.AtHome, YacStorage.slotIndex, hmask]
    rw [hslots p]
  have hread : ∀ a n, (s'.vals a).read n = (s.vals a).read n := by
    intro a n
    simp only [YacKvVal.read, hvals a]
  funext p
  simp only [board, hhome]
  split_ifs with hp
  · rw [howner p hp]
    simp only [YacStorage.entryOut, YacKvKey.vlen, hread]
    rw [hslots p]
  · rfl

theorem board_ext {s s' : YacStorage} (hmask : s'.slotsMask = s.slotsMask)
    (hslots : ∀ p, s'.slots p = { s.slots p with key := (s'.slots p).key })
    (howner : ∀ p, s.AtHome p → view.owner (s'.slots p) = view.owner (s.slots p))
    (hvals : ∀ a, (s'.vals a).len = (s.vals a).len ∧ (s'.vals a).data = (s.vals a).data) :
    view.board s' = view.board s := by
  have hentry : (view.board s').entry = (view.board s).entry := by
    refine view.board_entry_ext hmask (fun p => ?_) howner fun a => (hvals a).2
    rw [hslots p]
  have hdeadline : (view.board s').deadline = (view.board s).deadline := by
    funext p
    simp only [board, slotDeadline, (hvals _).1]
    rw [hslots p]
  exact Board.ext hentry hdeadline

theorem board_countMiss (s : YacStorage) : view.board s.countMiss = view.board s := rfl

theorem board_of_val {s : YacStorage} {p : Nat} {a : ValAddr}
    (hval : (s.slots p).val = some a) (hhome : s.AtHome p) :
    (view.board s).entry p = some (view.owner (s.slots p), s.entryOut p a) ∧
      (view.board s).deadline p = slotDeadline (s.slots p) (s.vals a).len := by
  simp [board, hval, hhome]

theorem board_setVal_atime (s : YacStorage) (a : ValAddr) (atime : UInt64) :
    view.board (s.setVal a { s.vals a with atime := atime }) = view.board s := by
  refine view.board_ext rfl (fun _ => rfl) (fun _ _ => rfl) fun b => ?_
  by_cases hba : b = a
  · subst hba
    simp
  · simp [Function.update_of_ne hba]

/-- Marking a slot buries its entry. -/
theorem board_mark (s : YacStorage) {p : Nat} {a : ValAddr} (hval : (s.slots p).val = some a) :
    view.board (s.setSlot p { s.slots p with ttl := 1 }) = (view.board s).bury p := by
  refine Board.ext (view.board_entry_ext rfl ?_ ?_ fun _ => rfl) ?_
  · intro q
    by_cases hqp : q = p
    · subst hqp
      simp
    · simp [Function.update_of_ne hqp]
  · intro q _
    by_cases hqp : q = p
    · subst hqp
      simp [view.owner_ttl]
    · simp [Function.update_of_ne hqp]
  · funext q
    by_cases hqp : q = p
    · subst hqp
      simp [board, Board.bury, hval, slotDeadline]
    · simp [board, Board.bury, Function.update_of_ne hqp]

theorem board_bury_refused (s : YacStorage) {p : Nat} {a : ValAddr}
    (hval : (s.slots p).val = some a)
    (hrefused : (s.slots p).ttl = 1 ∨ (s.slots p).len ≠ (s.vals a).len) :
    (view.board s).bury p = view.board s := by
  have hpassed : (view.board s).deadline p = .passed := by
    simp only [board, hval, slotDeadline, if_pos hrefused]
  unfold Board.bury
  rw [← hpassed, Function.update_eq_self]

theorem verify_lookupStep {env : StorageEnv} {s s' : YacStorage} {call : FindCall}
    {answer : FindAnswer} {a : ValAddr} (hverifies : s.Verifies call.key a)
    (houtcome : VerifyOutcome env s call (s.primary call.key) a (answer, s')) :
    Board.LookupStep (view.board s) (view.asked call.key, call.time.toInt)
      (boardAnswer answer) (view.board s') := by
  obtain ⟨hentry, hdeadline⟩ := view.board_of_val hverifies.val_eq hverifies.atHome
  cases houtcome with
  | refused hrefused =>
      have hdead : ¬ ((view.board s).deadline (s.primary call.key)).Live call.time.toInt := by
        rw [hdeadline, slotDeadline_live_iff]
        tauto
      -- the slot is not marked again, but burying a dead slot is no change
      have hbury := view.board_bury_refused s hverifies.val_eq hrefused
      rw [board_countMiss]
      nth_rewrite 2 [← hbury]
      exact .dead hdead
  | expired _ _ hne hle =>
      have hdead : ¬ ((view.board s).deadline (s.primary call.key)).Live call.time.toInt := by
        rw [hdeadline, slotDeadline_live_iff]
        rintro ⟨_, _, hlive⟩
        have := hlive hne
        omega
      rw [board_countMiss, view.board_mark s hverifies.val_eq]
      exact .dead hdead
  | corrupt _ _ _ _ => exact .miss
  | found hmark hlen hlive _ =>
      change Board.LookupStep (view.board s) _ _
        (view.board (s.setVal a { s.vals a with atime := call.time.toUInt64 }))
      rw [view.board_setVal_atime s a call.time.toUInt64]
      refine .served ?_ ?_
      · rw [hentry, view.owner_verified s call.key a hverifies]
        rfl
      · rw [hdeadline, slotDeadline_live_iff]
        exact ⟨hmark, hlen, hlive⟩

theorem yacStorageFind_lookupStep (env : StorageEnv) (s s' : YacStorage) (call : FindCall)
    (answer : FindAnswer)
    (howner : s.Probing call.key → ∀ p, s.AtHome p →
      view.owner ((s.claimSlots call.key (s.probes env call.key)).slots p) =
        view.owner (s.slots p))
    (hfind : yacStorageFind env s call = .ok (answer, s')) :
    Board.LookupStep (view.board s) (view.asked call.key, call.time.toInt)
      (boardAnswer answer) (view.board s') := by
  rcases yacStorageFind_completed hfind with
    ⟨_, heq⟩ | ⟨a, hverifies, houtcome⟩ | ⟨hprobing, _, heq⟩
  · obtain ⟨rfl, rfl⟩ := Prod.mk.inj heq
    exact .miss
  · exact view.verify_lookupStep hverifies houtcome
  · obtain ⟨rfl, rfl⟩ := Prod.mk.inj heq
    have hboard : view.board (s.claimSlots call.key (s.probes env call.key)).countMiss =
        view.board s := by
      exact view.board_ext rfl (s.claimSlots_slots call.key (s.probes env call.key))
        (howner hprobing) fun _ => ⟨rfl, rfl⟩
    change Board.LookupStep (view.board s) _ _
      (view.board (s.claimSlots call.key (s.probes env call.key)).countMiss)
    rw [hboard]
    exact .miss

end KeyView

end McoWeb.Storage
