import McoWeb.Cache.AddImpl

/-! # The ttl and the add flag

`yac_storage_update` is declared with `ttl` before `add`. The calls for strings
and serialized values pass them in this order, the calls for the scalar types
the other way round.
-/

namespace McoWeb.Cache

open Foundation Storage

namespace Yac

variable {σ : Type} (yac : Yac σ) (w : World σ) (pfx key : PhpString) (value : Zval)
  (ttl add : Int32)

/-- Whatever update the store makes, its ttl and add flag are the caller's. -/
def CarriesArguments : Prop :=
  ∀ call, yac.Stores w pfx key value ttl add call → call.ttl = ttl ∧ call.add = add

variable {yac w pfx key value ttl add}

theorem carriesArguments_of_sized (hsized : ¬ value.Scalar) :
    yac.CarriesArguments w pfx key value ttl add := by
  intro call hstores
  obtain ⟨_, _, _, hargs⟩ := hstores.carried
  rcases hargs with ⟨hscalar, _⟩ | ⟨_, hargs⟩
  · exact absurd hscalar hsized
  · exact hargs

/-- A scalar value carries the two in each other's place. -/
theorem Stores.swapped {call : UpdateCall} (hscalar : value.Scalar)
    (hstores : yac.Stores w pfx key value ttl add call) :
    call.ttl = add ∧ call.add = ttl := by
  obtain ⟨_, _, _, hargs⟩ := hstores.carried
  rcases hargs with ⟨_, hargs⟩ | ⟨hsized, _⟩
  · exact hargs
  · exact absurd hscalar hsized

/-- The arguments arrive where there is nothing to swap. -/
theorem carriesArguments_of_sized_or_eq (hcond : ¬ value.Scalar ∨ ttl = add) :
    yac.CarriesArguments w pfx key value ttl add := by
  by_cases hscalar : value.Scalar
  · have heq := hcond.resolve_left (not_not.mpr hscalar)
    intro call hstores
    obtain ⟨httl, hadd⟩ := hstores.swapped hscalar
    exact ⟨httl.trans heq.symm, hadd.trans heq⟩
  · exact carriesArguments_of_sized hscalar

variable (yac w pfx key value ttl add)

/-- The caller's ttl and add flag reach the store exactly when the key is too long
for any call, the value is not a scalar, or the two are equal; two stores of
which this holds ask for the same expiry and the same overwriting. -/
theorem yacAddImpl_carriesArguments_iff :
    (yac.CarriesArguments w pfx key value ttl add ↔
      KeyTooLong pfx key ∨ ¬ value.Scalar ∨ ttl = add) ∧
    ∀ key' value' call call', yac.Stores w pfx key value ttl add call →
      yac.Stores w pfx key' value' ttl add call' →
      (¬ value.Scalar ∨ ttl = add) → (¬ value'.Scalar ∨ ttl = add) →
      call.ttl = call'.ttl ∧ call.add = call'.add := by
  refine ⟨⟨?_, ?_⟩, ?_⟩
  · intro hall
    by_contra hcond
    simp only [not_or, not_not] at hcond
    obtain ⟨haccepted, hscalar, hne⟩ := hcond
    obtain ⟨call, hstores⟩ : ∃ call, yac.Stores w pfx key value ttl add call :=
      exists_stores_of_scalar w ttl add haccepted hscalar
    exact hne ((hall call hstores).1.symm.trans (hstores.swapped hscalar).1)
  · rintro (hlong | hcond)
    · intro call hstores
      exact absurd hlong hstores.carried.1
    · exact carriesArguments_of_sized_or_eq hcond
  · intro key' value' call call' hstores hstores' hcond hcond'
    obtain ⟨httl, hadd⟩ := carriesArguments_of_sized_or_eq hcond call hstores
    obtain ⟨httl', hadd'⟩ := carriesArguments_of_sized_or_eq hcond' call' hstores'
    exact ⟨httl.trans httl'.symm, hadd.trans hadd'.symm⟩

end Yac

/-- A module with no compressor or serializer over a store that takes everything
and finds nothing. -/
def plainYac : Yac Unit where
  enable := true
  compressThreshold := 1024
  engine :=
    { otherPrintable := fun _ => .empty
      parseLong := fun value => match value with
        | .long lval => some lval
        | _ => none
      assoc := fun entries => entries.map fun e => (.string e.1, e.2)
      missingArgument := 0 }
  fastlz := ⟨fun _ => [], fun _ _ => [], fun _ _ => Nat.zero_le _⟩
  serializer := ⟨fun _ => none, fun _ => none⟩
  store := ⟨fun _ _ => (1, ()), fun _ _ => (none, ()), fun _ _ _ => ()⟩

/-- Nothing observed yet. -/
def freshWorld : World Unit := ⟨(), [], [], []⟩

/-- A set of the integer 7 for 60 seconds asks for an entry without expiry that
overwrites nothing; the string `7` is stored as asked. -/
theorem yacAddImpl_swaps_ttl_add :
    plainYac.Stores freshWorld .empty .empty (.long 7) 60 0
        ⟨storageKey .empty .empty, [7, 0, 0, 0, 0, 0, 0, 0], 1, 0, 60⟩ ∧
      plainYac.Stores freshWorld .empty .empty (.string ⟨[0x37], by decide⟩) 60 0
        ⟨storageKey .empty .empty, [0x37], 6, 60, 0⟩ ∧
      ¬ plainYac.CarriesArguments freshWorld .empty .empty (.long 7) 60 0 := by
  refine ⟨rfl, rfl, ?_⟩
  intro hcarries
  have hcall := hcarries ⟨storageKey .empty .empty, [7, 0, 0, 0, 0, 0, 0, 0], 1, 0, 60⟩ rfl
  exact absurd hcall.1 (by decide)

end McoWeb.Cache
