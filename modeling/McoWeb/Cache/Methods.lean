import McoWeb.Cache.DeleteImpl

/-! # The script methods

`Yac::add`, `Yac::set`, `Yac::get` and `Yac::delete`: parsing of the arguments,
the dispatch over the type of the key argument, and the value handed back to the
script. Local variables that the source leaves unset are parameters. The source is not
consistent in the spelling of its names (`&key` where `keys` is declared, `is-string`,
`z_strval_p` of a local that is no pointer); a name that is not declared is read as the
declared one that it is nearest to, and a macro as the one that fits the type it is
applied to.
-/

namespace McoWeb.Cache

/-- What the unset locals of a call hold. -/
structure Locals where
  copy : PhpString
  ret : Option Zval

/-- The arguments of `add` and `set` after their switch over the argument count.
The value is `NULL` next to an array only. -/
structure StoreArgs where
  keys : Zval
  value : Option Zval
  ttl : Int64
  value_isSome : ¬ keys.isArray → value.isSome

/-- The switch over `ZEND_NUM_ARGS()` of `add`. Its three-argument form reads into
`&key`, which is `keys`. -/
def parseAddArgs (engine : Engine) : List Zval → Except (Option String) StoreArgs
  | [keys] =>
      if harray : keys.isArray then .ok ⟨keys, none, 0, fun hkeys => absurd harray hkeys⟩
      else .error none
  | [keys, value] =>
      if harray : keys.isArray then
        match value with
        | .long ttl => .ok ⟨keys, none, ttl, fun hkeys => absurd harray hkeys⟩
        | _ => .error (some "ttl parameter must be an integer")
      else .ok ⟨keys, some value, 0, fun _ => rfl⟩
  | [keys, value, ttl] =>
      match engine.parseLong ttl with
      | some ttl => .ok ⟨keys, some value, ttl, fun _ => rfl⟩
      | none => .error none
  | _ => .error none

/-- The switch over `ZEND_NUM_ARGS()` of `set`. -/
def parseSetArgs (engine : Engine) : List Zval → Except (Option String) StoreArgs
  | [keys] =>
      if harray : keys.isArray then .ok ⟨keys, none, 0, fun hkeys => absurd harray hkeys⟩
      else .error none
  | [keys, value] =>
      if harray : keys.isArray then
        match value with
        | .long ttl => .ok ⟨keys, none, ttl, fun hkeys => absurd harray hkeys⟩
        | _ => .error (some "ttl parameter must be an integer")
      else .ok ⟨keys, some value, 0, fun _ => rfl⟩
  | [keys, value, ttl] =>
      match engine.parseLong ttl with
      | some ttl => .ok ⟨keys, some value, ttl, fun _ => rfl⟩
      | none => .error none
  | _ => .error none

/-- The three branches of `add` over the type of the key argument. -/
def StoreArgs.addCall (args : StoreArgs) (engine : Engine) (copy : PhpString) : AddCall :=
  if harray : args.keys.isArray then .multi args.keys args.ttl.toInt32 1
  else
    .single (engine.keyText args.keys copy) (args.value.get (args.value_isSome harray))
      args.ttl.toInt32 1

/-- The three branches of `set` over the type of the key argument. -/
def StoreArgs.setCall (args : StoreArgs) (engine : Engine) (copy : PhpString) : AddCall :=
  if harray : args.keys.isArray then .multi args.keys args.ttl.toInt32 0
  else
    .single (engine.keyText args.keys copy) (args.value.get (args.value_isSome harray))
      args.ttl.toInt32 0

/-- The two switches accept the same and parse it alike. -/
theorem parseSetArgs_eq (engine : Engine) (args : List Zval) :
    parseSetArgs engine args = parseAddArgs engine args := by
  unfold parseSetArgs parseAddArgs
  rfl

namespace Yac

variable {σ : Type} (yac : Yac σ) (w : World σ)

/-- A call of `yac_add_impl` or `yac_add_multi_impl` from a method. -/
def invokeAdd (pfx : PhpString) (call : AddCall) : Int32 × World σ :=
  let w := w.enter (.add pfx call)
  match call with
  | .single key value ttl add => yac.yacAddImpl w pfx key value ttl add
  | .multi kvs ttl add => yac.yacAddMultiImpl w pfx kvs ttl add

/-- A call of `yac_get_impl` or `yac_get_multi_impl` from a method. -/
def invokeGet (pfx copy : PhpString) (call : GetCall) : Option Zval × World σ :=
  let w := w.enter (.get pfx call)
  match call with
  | .single key => yac.yacGetImpl w pfx key
  | .multi keys => yac.yacGetMultiImpl w pfx copy keys

/-- A call of `yac_delete_impl` or `yac_delete_multi_impl` from a method. -/
def invokeDelete (pfx copy : PhpString) (call : DeleteCall) : Except (World σ) (World σ) :=
  let w := w.enter (.delete pfx call)
  match call with
  | .single key ttl => yac.yacDeleteImpl w pfx (.string key) ttl
  | .multi keys ttl => yac.yacDeleteMultiImpl w pfx copy keys ttl

/-- `Yac::add`, on an object with a prefix or as the function `yac_add`. -/
def yacAdd (this : Option PhpString) (args : List Zval) (locals : Locals) : Zval × World σ :=
  if yac.enable = false then (.bool 0, w)
  else
    match parseAddArgs yac.engine args with
    | .error warning => (.null, w.refuse warning)
    | .ok args =>
        let (ret, w) := yac.invokeAdd w (this.getD .empty) (args.addCall yac.engine locals.copy)
        (.bool (if ret ≠ 0 then 1 else 0), w)

/-- `Yac::set`. Its last line is the closing brace of the dispatch: the return
value stays what the engine set it to. -/
def yacSet (this : Option PhpString) (args : List Zval) (locals : Locals) : Zval × World σ :=
  if yac.enable = false then (.bool 0, w)
  else
    match parseSetArgs yac.engine args with
    | .error warning => (.null, w.refuse warning)
    | .ok args =>
        let (_, w) := yac.invokeAdd w (this.getD .empty) (args.setCall yac.engine locals.copy)
        (.null, w)

/-- `Yac::get`. -/
def yacGet (this : Option PhpString) (args : List Zval) (locals : Locals) : Zval × World σ :=
  if yac.enable = false then (.bool 0, w)
  else
    match args with
    | [keys] | [keys, _] =>
        let pfx := this.getD .empty
        let (ret, w) :=
          match keys with
          | .array _ => yac.invokeGet w pfx locals.copy (.multi keys)
          | .string _ =>
              yac.invokeGet w pfx locals.copy
                (.single (yac.engine.makePrintable keys locals.copy).1)
          | _ => (locals.ret, w) -- no branch for the other types
        (ret.getD (.bool 0), w)
    | _ => (.null, w)

/-- The second argument of `delete`. -/
def parseTime (engine : Engine) : List Zval → Option (Zval × Int64)
  | [keys] => some (keys, 0)
  | [keys, time] => (engine.parseLong time).map fun time => (keys, time)
  | _ => none

/-- `Yac::delete`. In its last branch `z_strval_p(copy)`, of the local struct `copy`, is taken
for `z_strval(copy)`, as the `z_strlen(copy)` beside it says. -/
def yacDelete (this : Option PhpString) (args : List Zval) (locals : Locals) :
    Except (World σ) (Zval × World σ) :=
  if yac.enable = false then .ok (.bool 0, w)
  else
    match parseTime yac.engine args with
    | none => .ok (.null, w)
    | some (keys, time) =>
        let call : DeleteCall :=
          if keys.isArray then .multi keys time.toInt32
          else .single (yac.engine.keyText keys locals.copy) time.toInt32
        match yac.invokeDelete w (this.getD .empty) locals.copy call with
        | .error w => .error w
        | .ok w => .ok (.bool 1, w)

end Yac

end McoWeb.Cache
