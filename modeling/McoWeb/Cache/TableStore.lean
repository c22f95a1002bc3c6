import McoWeb.Cache.LossyStore
import McoWeb.Cache.Placement

/-! # The cache over the shared table

The shipped lookup keeps the promise that a cache needs of its store, so the
cache over a table is a lossy map of values whatever updates and deletions do
that keep theirs. A fault of a lookup ends the process; after it nothing is
found.
-/

namespace McoWeb.Cache

open Foundation Storage

/-- The table of a process, until a fault ends it, and what the clock is going to
read. -/
structure TableState where
  table : Option YacStorage
  clock : Nat → Int64

/-- The out parameters of a hit as `yac_get_impl` uses them. -/
def handedOut (out : FindOut) : Option Fetched :=
  if hsize : (out.data.take out.size.toNat).length < 2 ^ 24 then
    some ⟨out.data.take out.size.toNat, out.flag, hsize⟩
  else none

namespace TableState

variable (env : StorageEnv) (s : TableState)

/-- The clock after a reading. -/
def later : Nat → Int64 := fun n => s.clock (n + 1)

/-- `yac_storage_find` from `yac_get_impl`, whose locals hold `out` before. -/
def find (out : FindOut) (key : Key) : Option Fetched × TableState :=
  match s.table with
  | none => (none, s)
  | some table =>
      match yacStorageFind env table ⟨key, s.clock 0, out⟩ with
      | .error _ => (none, ⟨none, s.later⟩)
      | .ok (answer, table) =>
          (if answer.ret = 1 then handedOut answer.out else none, ⟨some table, s.later⟩)

/-- The entries of the table, as they are handed out. -/
def contents : Key → Option Fetched :=
  readMap handedOut (s.table.elim (fun _ => none) fun table => table.entries env)

/-- A lookup of the key does not replace the key of its primary slot. -/
def Safe (key : Key) : Prop := ∀ table, s.table = some table → ¬ ReplacesPrimary env table key

variable {env s}

theorem find_lossy (out : FindOut) {key : Key} (hsafe : s.Safe env key) :
    LossyStep (s.contents env) ((s.find env out key).1.elim .idle (.answer key))
      ((s.find env out key).2.contents env) := by
  unfold find
  split
  next => exact .of_within (.refl _)
  next table htable =>
    have hcontents : s.contents env = readMap handedOut (table.entries env) := by
      rw [contents, htable, Option.elim_some]
    split
    next =>
      refine .of_within ?_
      intro k found hfound
      cases hfound
    next answer table' hfind =>
      have hstep := (yacStorageFind_lossy hfind (hsafe table htable)).through handedOut
      rw [hcontents]
      have hevent : (if answer.ret = 1 then handedOut answer.out else none).elim .idle
          (.answer key) = (findEvent key answer).through handedOut := by
        unfold findEvent
        split <;> rfl
      rw [hevent]
      exact hstep

theorem find_of_hit {out : FindOut} {key : Key} {table table' : YacStorage} {answer : FindAnswer}
    (htable : s.table = some table)
    (hfind : yacStorageFind env table ⟨key, s.clock 0, out⟩ = .ok (answer, table'))
    (hret : answer.ret = 1) : (s.find env out key).1 = handedOut answer.out := by
  simp only [find, htable, hfind, hret, if_true]

end TableState

/-- The store of a table, with the updates and deletions of another file. -/
def tableStore (env : StorageEnv) (out : FindOut)
    (update : UpdateCall → TableState → Int32 × TableState)
    (delete : Key → Int32 → TableState → TableState) : Store TableState :=
  ⟨update, fun key s => s.find env out key, delete⟩

section

variable {env : StorageEnv} {update : UpdateCall → TableState → Int32 × TableState}
  {delete : Key → Int32 → TableState → TableState}

/-- An update stores its entry or none, and adds no other. -/
def UpdateKeeps (env : StorageEnv) (update : UpdateCall → TableState → Int32 × TableState) :
    Prop :=
  ∀ (call : UpdateCall) (hsize : call.data.length < 2 ^ 24) (s : TableState),
    LossyStep (s.contents env)
      (if (update call s).1 ≠ 0 then .put call.key ⟨call.data, call.flag, hsize⟩ else .idle)
      ((update call s).2.contents env)

/-- A deletion without delay removes the entry, and no deletion adds one. -/
def DeleteKeeps (env : StorageEnv) (delete : Key → Int32 → TableState → TableState) : Prop :=
  ∀ (key : Key) (ttl : Int32) (s : TableState),
    LossyStep (s.contents env) (if ttl = 0 then .remove key else .idle)
      ((delete key ttl s).contents env)

theorem tableStore_lossy (out : FindOut) (hupdate : UpdateKeeps env update)
    (hdelete : DeleteKeeps env delete) :
    LossyStore (tableStore env out update delete) (TableState.contents env)
      (TableState.Safe env) :=
  ⟨hupdate, fun _ _ hsafe => TableState.find_lossy out hsafe, hdelete⟩

end

/-- An update that places its entry in the primary slot, if the value cell is free. -/
def placePrimary (env : StorageEnv) (call : UpdateCall) (s : TableState) : Int32 × TableState :=
  match s.table with
  | none => (0, s)
  | some table =>
      if hfits : call.key.bytes.length ≤ yacStorageMaxKeyLen then
        if CellFree table (table.primary call.key) then
          (1, { s with table := some (place env table call hfits) })
        else (0, s)
      else (0, s)

/-- A deletion at once that marks the primary slot. -/
def markPrimary : Key → Int32 → TableState → TableState := fun key ttl s =>
  if ttl = 0 then { s with table := s.table.map fun table => table.mark (table.primary key) }
  else s

theorem handedOut_placed (env : StorageEnv) (call : UpdateCall)
    (hfits : call.key.bytes.length ≤ yacStorageMaxKeyLen) (hsize : call.data.length < 2 ^ 24)
    (a : ValAddr) :
    handedOut ⟨call.data ++ [0], (placedSlot env call hfits a).vlen, call.flag⟩ =
      some ⟨call.data, call.flag, hsize⟩ := by
  have hvlen := (@placedSlot_lengths env call hfits hsize a).2
  have htake : (call.data ++ [0]).take (placedSlot env call hfits a).vlen.toNat = call.data := by
    rw [hvlen]
    exact List.take_left
  simp only [handedOut, htake, dif_pos hsize]

theorem placePrimary_keeps (env : StorageEnv) : UpdateKeeps env (placePrimary env) := by
  intro call hsize s
  unfold placePrimary
  split
  next => exact .of_within (.refl _)
  next table htable =>
    split
    next hfits =>
      split
      next hfree =>
        have hstep := (@place_lossy env table call hfits hsize hfree).through handedOut
        rw [MapEvent.through, handedOut_placed env call hfits hsize] at hstep
        rw [TableState.contents, TableState.contents, htable]
        exact hstep
      next => exact .of_within (.refl _)
    next => exact .of_within (.refl _)

/-- What was placed is found. -/
theorem find_place {env : StorageEnv} (table : YacStorage) {call : UpdateCall}
    (hfits : call.key.bytes.length ≤ yacStorageMaxKeyLen) (hsize : call.data.length < 2 ^ 24)
    (clock : Nat → Int64) (out : FindOut) :
    (TableState.find env ⟨some (place env table call hfits), clock⟩ out call.key).1 =
      some ⟨call.data, call.flag, hsize⟩ := by
  have hholds : (place env table call hfits).HoldsKey call.key
      ((place env table call hfits).primary call.key) := by
    rw [place_primary]
    exact place_holds hfits hsize
  have hintact : (place env table call hfits).Intact env (clock 0)
      ((place env table call hfits).primary call.key) (table.primary call.key) := by
    rw [place_primary]
    exact place_intact hfits hsize (clock 0)
  obtain ⟨_, hfind⟩ := @yacStorageFind_primary env (place env table call hfits)
    ⟨call.key, clock 0, out⟩ _ hfits hholds hintact
  rw [place_primary, place_entryOut hfits hsize] at hfind
  have hfound := @TableState.find_of_hit env ⟨some (place env table call hfits), clock⟩ out call.key
    _ _ _ rfl hfind rfl
  rw [hfound]
  exact handedOut_placed env call hfits hsize _

theorem markPrimary_keeps (env : StorageEnv) : DeleteKeeps env markPrimary := by
  intro key ttl s
  unfold markPrimary
  split
  next =>
    cases htable : s.table with
    | none =>
        refine ⟨(LossyStep.remove _ key).held, ?_⟩
        intro other found hfound
        cases hfound
    | some table =>
        rw [TableState.contents, TableState.contents, htable]
        exact (mark_lossy env table key).through handedOut
  next => exact .of_within (.refl _)

/-- A module over tables that places, looks up and marks. -/
def tableYac : Yac TableState :=
  ⟨true, 1024, plainYac.engine, plainYac.fastlz, plainYac.serializer,
    tableStore oddEnv ⟨[], 0, 0⟩ (placePrimary oddEnv) markPrimary⟩

/-- A world around a table. -/
def tableWorld (table : YacStorage) : World TableState :=
  ⟨⟨some table, fun _ => 0⟩, [], [], []⟩

/-- The script key of the stored entry. -/
def textB : PhpString := ⟨keyB.bytes, by decide⟩

/-- The table once the integer 7 was stored in the place of the entry. -/
def storedTable : World TableState :=
  (tableYac.yacAddImpl (tableYac.yacGetImpl (tableWorld tableWithB) .empty textB).2 .empty textB
    (.long 7) 0 0).2

end McoWeb.Cache
