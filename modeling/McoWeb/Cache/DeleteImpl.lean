import McoWeb.Cache.GetImpl

/-! # Deleting

`yac_delete_impl` and `yac_delete_multi_impl`. For a string element the loop
passes the element's length where the key is expected, so the key is an address
that points at no string.
-/

namespace McoWeb.Cache

open Foundation Storage

/-- The `char *key, uint len` that `yac_delete_impl` is passed: a string and its
length, or the length of a string twice. -/
inductive KeyPointer
  | string (key : PhpString)
  | lengthTwice (key : PhpString)

/-- The string that the length is of. -/
def KeyPointer.measured : KeyPointer → PhpString
  | .string key => key
  | .lengthTwice key => key

namespace Yac

variable {σ : Type} (yac : Yac σ)

/-- `yac_delete_impl`. Reading through a length is an error in the world it happens in. A
length of zero is the null pointer: without a prefix no byte of it is asked for, and under a
prefix it is the argument of a `%s`, which the C standard leaves undefined (some libraries
print `(null)`), so it counts as an error as well. -/
def yacDeleteImpl (w : World σ) (pfx : PhpString) (key : KeyPointer) (ttl : Int32) :
    Except (World σ) (World σ) :=
  if KeyTooLong pfx key.measured then .ok (w.warn (keyTooLongText "Key " pfx))
  else
    match key with
    | .string key => .ok (yac.yacStorageDelete w (storageKey pfx key) ttl)
    | .lengthTwice key =>
        if pfx.length = 0 ∧ key.length = 0 then
          .ok (yac.yacStorageDelete w (storageKey pfx .empty) ttl)
        else .error w

/-- The loop of `yac_delete_multi_impl`, from an element on. -/
def yacDeleteElements (pfx copy : PhpString) (ttl : Int32) :
    List (HashKey × Zval) → World σ → Except (World σ) (World σ)
  | [], w => .ok w
  | (_, value) :: rest, w =>
      let key :=
        match value with
        | .string str => .lengthTwice str -- `Z_STRLEN_PP` in the place of `Z_STRVAL_PP`
        | value => .string (yac.engine.makePrintable value copy).1
      match yac.yacDeleteImpl w pfx key ttl with
      | .error w => .error w
      | .ok w => yacDeleteElements pfx copy ttl rest w

/-- `yac_delete_multi_impl`. -/
def yacDeleteMultiImpl (w : World σ) (pfx copy : PhpString) (keys : Zval) (ttl : Int32) :
    Except (World σ) (World σ) :=
  yac.yacDeleteElements pfx copy ttl keys.arrval w

theorem yacDeleteImpl_string (w : World σ) {pfx key : PhpString} (ttl : Int32)
    (haccepted : ¬ KeyTooLong pfx key) :
    yac.yacDeleteImpl w pfx (.string key) ttl =
      .ok (yac.yacStorageDelete w (storageKey pfx key) ttl) := by
  rw [yacDeleteImpl, if_neg (show ¬ KeyTooLong pfx (KeyPointer.string key).measured from haccepted)]

end Yac

end McoWeb.Cache
