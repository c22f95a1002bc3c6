import Mathlib.Logic.Function.Basic

/-! # Folding a list in groups

A loop that takes a fixed number of elements at a time. Where each group acts
injectively on the state, what one group does to the state is never lost, so two
lists that differ in one group are told apart exactly as far as that group is.
-/

namespace McoWeb.Foundation

universe u v

variable {α : Type u} {β : Type v}

/-- Let the first `count` groups of `n` elements act on a state, in order. -/
def foldGroups (n : Nat) (act : List β → α → α) : Nat → List β → α → α
  | 0, _, state => state
  | count + 1, xs, state => foldGroups n act count (xs.drop n) (act (xs.take n) state)

/-- The `t`-th group of `n` elements. -/
def group (n t : Nat) (xs : List β) : List β := (xs.drop (n * t)).take n

/-- Two lists of one length that agree outside the `t`-th group of `n` elements. -/
structure AgreeOutside (n t : Nat) (xs ys : List β) : Prop where
  length_eq : xs.length = ys.length
  before : xs.take (n * t) = ys.take (n * t)
  after : xs.drop (n * t + n) = ys.drop (n * t + n)

theorem foldGroups_injective {n : Nat} {act : List β → α → α}
    (hact : ∀ xs, Function.Injective (act xs)) (count : Nat) (xs : List β) :
    Function.Injective (foldGroups n act count xs) := by
  induction count generalizing xs with
  | zero => exact Function.injective_id
  | succ count ih => exact (ih (xs.drop n)).comp (hact (xs.take n))

theorem foldl_injective {step : α → β → α} (hstep : ∀ b, Function.Injective fun a => step a b)
    (xs : List β) : Function.Injective fun state => xs.foldl step state := by
  induction xs with
  | nil => exact Function.injective_id
  | cons b rest ih => exact ih.comp (hstep b)

/-- A fold takes its elements in groups of one. -/
theorem foldGroups_one (step : α → β → α) (xs : List β) (state : α) :
    foldGroups 1 (fun zs a => zs.foldl step a) xs.length xs state = xs.foldl step state := by
  induction xs generalizing state with
  | nil => rfl
  | cons b rest ih => exact ih (step state b)

theorem group_one {j : Nat} {xs : List β} (hj : j < xs.length) : group 1 j xs = [xs[j]] := by
  rw [group, Nat.one_mul, List.drop_eq_getElem_cons hj]
  rfl

namespace AgreeOutside

variable {n t : Nat} {xs ys : List β}

/-- Lists may be compared index by index. -/
theorem of_getElem? (hn : 0 < n) (hlen : xs.length = ys.length)
    (hagree : ∀ i, i / n ≠ t → xs[i]? = ys[i]?) : AgreeOutside n t xs ys := by
  refine ⟨hlen, ?_, ?_⟩
  · apply List.ext_getElem?
    intro i
    simp only [List.getElem?_take]
    split
    next hi =>
      refine hagree i (Nat.ne_of_lt ?_)
      exact (Nat.div_lt_iff_lt_mul hn).mpr (by rwa [Nat.mul_comm])
    next => rfl
  · apply List.ext_getElem?
    intro i
    simp only [List.getElem?_drop]
    refine hagree _ (Nat.ne_of_gt ?_)
    refine (Nat.le_div_iff_mul_le hn).mpr ?_
    rw [Nat.succ_mul, Nat.mul_comm]
    omega

theorem drop_group (hagree : AgreeOutside n (t + 1) xs ys) :
    xs.take n = ys.take n ∧ AgreeOutside n t (xs.drop n) (ys.drop n) := by
  have hmul : n * (t + 1) = n + n * t := by rw [Nat.mul_succ, Nat.add_comm]
  obtain ⟨hlen, hbefore, hafter⟩ := hagree
  rw [hmul] at hbefore hafter
  refine ⟨?_, ?_, ?_, ?_⟩
  · have htake := congrArg (List.take n) hbefore
    rwa [List.take_take, List.take_take, Nat.min_eq_left (Nat.le_add_right _ _)] at htake
  · rw [List.length_drop, List.length_drop, hlen]
  · have hdrop := congrArg (List.drop n) hbefore
    rwa [List.drop_take, List.drop_take, Nat.add_sub_cancel_left] at hdrop
  · rwa [List.drop_drop, List.drop_drop, ← Nat.add_assoc]

/-- Groups outside the one where the lists differ act alike. -/
theorem foldGroups_of_le {act : List β → α → α} (hagree : AgreeOutside n t xs ys) {count : Nat}
    (hcount : count ≤ t) (state : α) :
    foldGroups n act count xs state = foldGroups n act count ys state := by
  induction count generalizing t xs ys state with
  | zero => rfl
  | succ count ih =>
      obtain ⟨t, rfl⟩ : ∃ k, t = k + 1 := ⟨t - 1, by omega⟩
      obtain ⟨hfirst, hrest⟩ := hagree.drop_group
      rw [foldGroups, foldGroups, hfirst]
      exact ih hrest (by omega) _

/-- The whole fold tells the lists apart exactly as far as the group does, in the
state it meets. -/
theorem foldGroups_inj {act : List β → α → α} (hact : ∀ xs, Function.Injective (act xs))
    (hagree : AgreeOutside n t xs ys) {count : Nat} (hcount : t < count) (state : α) :
    ∃ met, foldGroups n act count xs state = foldGroups n act count ys state ↔
      act (group n t xs) met = act (group n t ys) met := by
  induction t generalizing count xs ys state with
  | zero =>
      obtain ⟨count, rfl⟩ : ∃ k, count = k + 1 := ⟨count - 1, by omega⟩
      have hafter : xs.drop n = ys.drop n := by
        have hdrop := hagree.after
        rwa [Nat.mul_zero, Nat.zero_add] at hdrop
      refine ⟨state, ?_⟩
      simp only [foldGroups, group, Nat.mul_zero, List.drop_zero, hafter]
      exact (foldGroups_injective hact count _).eq_iff
  | succ t ih =>
      obtain ⟨count, rfl⟩ : ∃ k, count = k + 1 := ⟨count - 1, by omega⟩
      obtain ⟨hfirst, hrest⟩ := hagree.drop_group
      obtain ⟨met, hmet⟩ := ih hrest (Nat.lt_of_succ_lt_succ hcount) (act (ys.take n) state)
      refine ⟨met, ?_⟩
      have hgroup : ∀ zs : List β, group n (t + 1) zs = group n t (zs.drop n) := by
        intro zs
        rw [group, group, List.drop_drop, Nat.mul_succ, Nat.add_comm]
      rw [foldGroups, foldGroups, hfirst, hgroup, hgroup]
      exact hmet

/-- Folding element by element, a difference in one element is kept as far as
its one step keeps it. -/
theorem foldl_inj {j : Nat} {step : α → β → α} (hstep : ∀ b, Function.Injective fun a => step a b)
    (hagree : AgreeOutside 1 j xs ys) (hxs : j < xs.length) (hys : j < ys.length) (state : α) :
    ∃ met, xs.foldl step state = ys.foldl step state ↔ step met xs[j] = step met ys[j] := by
  obtain ⟨met, hmet⟩ := hagree.foldGroups_inj (foldl_injective hstep) hxs state
  refine ⟨met, ?_⟩
  rw [foldGroups_one, hagree.length_eq, foldGroups_one, group_one hxs, group_one hys] at hmet
  exact hmet

end AgreeOutside

end McoWeb.Foundation
