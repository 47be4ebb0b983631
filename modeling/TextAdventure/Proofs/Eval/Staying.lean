import TextAdventure.Proofs.Eval.Closed

/-! # Evaluation stays in a realm

Every step of an evaluation that starts from a store of a realm ends with one, at the same stage or at a
later one, and so does every call, however deep calls are nested. What is evaluated is of the realm as well.
-/
namespace TextAdventure.Eval

variable {α β : Type} {R : Realm} {w : R.Stage} {φ : Post R α} {m : Eval α}

/-- From stores of the realm the computation comes to one at a later stage, even if it fails, and what it
gives is as promised. -/
def Stays (φ : Post R α) (w : R.Stage) (m : Eval α) : Prop :=
  ∀ s, s.At R w → ∃ w₁, R.Le w w₁ ∧ (runOn m s).2.At R w₁ ∧ ∀ a, (runOn m s).1 = .ok a → φ.holds w₁ a

namespace Stays

theorem pure {a : α} (ha : φ.holds w a) : Stays φ w (pure a) := by
  refine fun s hs => ⟨w, R.refl, hs, ?_⟩
  rintro _ ⟨⟩
  exact ha

theorem throw (e : Error) : Stays φ w (throw e) :=
  fun _ hs => ⟨w, R.refl, hs, nofun⟩

theorem get : Stays (.store R) w get := by
  refine fun s hs => ⟨w, R.refl, hs, ?_⟩
  rintro _ ⟨⟩
  exact hs.within

theorem modifyGet {f : Store → α × Store} (hglobals : ∀ s, (f s).2.globals = s.globals)
    (hscopes : ∀ s, (f s).2.scopes = s.scopes) (hentities : ∀ s, (f s).2.entities = s.entities)
    (hnext : ∀ s, (f s).2.nextIdentity = s.nextIdentity) : Stays (.any R) w (modifyGet f) :=
  fun s hs => ⟨w, R.refl, hs.of_same (hglobals s) (hscopes s) (hentities s) (hnext s), fun _ _ => trivial⟩

theorem bind {ψ : Post R β} {k : α → Eval β} (hm : Stays φ w m)
    (hk : ∀ w₁ a, R.Le w w₁ → φ.holds w₁ a → Stays ψ w₁ (k a)) : Stays ψ w (m >>= k) := by
  intro s hs
  obtain ⟨w₁, hle, ht, ha⟩ := hm s hs
  rw [runOn_bind]
  rcases hrun : runOn m s with ⟨_ | a, t⟩ <;> rw [hrun] at ht ha
  · exact ⟨w₁, hle, ht, nofun⟩
  · obtain ⟨w₂, hle₂, hu, hb⟩ := hk w₁ a hle (ha a rfl) t ht
    exact ⟨w₂, R.trans hle hle₂, hu, hb⟩

theorem any (hm : Stays φ w m) : Stays (.any R) w m := by
  intro s hs
  obtain ⟨w₁, hle, ht, -⟩ := hm s hs
  exact ⟨w₁, hle, ht, fun _ _ => trivial⟩

theorem map {ψ : Post R β} {f : α → β} (hm : Stays φ w m) (hf : ∀ w₁ a, φ.holds w₁ a → ψ.holds w₁ (f a)) :
    Stays ψ w (f <$> m) := by
  rw [← bind_pure_comp]
  exact hm.bind fun w₁ a _ ha => .pure (hf w₁ a ha)

theorem change {f : Store → Except Error (α × Store)}
    (hf : ∀ {s a t}, s.At R w → f s = .ok (a, t) → ∃ w₁, R.Le w w₁ ∧ t.At R w₁ ∧ φ.holds w₁ a) :
    Stays φ w (change f) := by
  intro s hs
  rw [runOn_change]
  split
  next a t heq =>
    obtain ⟨w₁, hle, ht, ha⟩ := hf hs heq
    refine ⟨w₁, hle, ht, ?_⟩
    rintro _ ⟨⟩
    exact ha
  next => exact ⟨w, R.refl, hs, nofun⟩

theorem mapError (f : Error → Error) (hm : Stays φ w m) : Stays φ w (mapError f m) := by
  intro s hs
  obtain ⟨w₁, hle, ht, ha⟩ := hm s hs
  rw [runOn_mapError]
  refine ⟨w₁, hle, ht, fun a heq => ha a ?_⟩
  cases hrun : (runOn m s).1 <;> rw [hrun] at heq <;> cases heq
  rfl

theorem inScope {scope : Scope} (hscope : ∀ bindings, scope = .block bindings → R.HasAll w bindings)
    (hm : Stays φ w m) : Stays φ w (inScope scope m) := by
  intro s hs
  obtain ⟨w₁, hle, ht, ha⟩ := hm _ (hs.openScope hscope)
  rw [runOn_inScope]
  exact ⟨w₁, hle, ht.closeScope, ha⟩

theorem asCall (hm : Stays φ w m) : Stays φ w (asCall m) := by
  intro s hs
  rw [runOn_asCall]
  split
  · have hentered : Store.At R w { s with activeCalls := s.activeCalls + 1 } := hs.of_same rfl rfl rfl rfl
    obtain ⟨w₁, hle, ht, ha⟩ := hm _ hentered
    exact ⟨w₁, hle, ht.of_same rfl rfl rfl rfl, ha⟩
  · exact ⟨w, R.refl, hs, nofun⟩

theorem holdAll {vs : List Value} (hvs : ∀ v ∈ vs, R.Has w v) :
    Stays (.values R) w (MonadStateOf.modifyGet (Store.holdAll vs)) := by
  intro s hs
  obtain ⟨w₁, hle, ht, hheld⟩ := hs.holdAll hvs
  refine ⟨w₁, hle, ht, ?_⟩
  rintro _ ⟨⟩
  exact hheld

theorem storeName (op : AssignOp) (root : String) (keys : List String) {new : Value} (hnew : R.Has w new) :
    Stays (.resolved R) w (Code.storeName op root keys new) := by
  refine change fun {s r t} hs heq => ?_
  obtain ⟨stored, hcombine, heq⟩ := Error.bind_eq_ok_iff.mp heq
  obtain ⟨u, hset, heq⟩ := Error.bind_eq_ok_iff.mp heq
  cases heq
  have hpresent : R.Has w (s.follow ((s.lookupName root).getD .nil) keys) :=
    hs.within.follow (Realm.has_getD fun v => hs.within.lookupName) keys
  obtain ⟨w₁, hle, hmarked, hheld⟩ := hs.hold (Realm.has_combine hpresent hnew hcombine)
  obtain ⟨w₂, hle₂, hu⟩ := hmarked.setKeys hheld hset
  exact ⟨w₂, R.trans hle hle₂, hu, R.mono hle₂ hheld⟩

theorem storeInto (op : AssignOp) (keys : List String) {target new : Value} (htarget : R.Has w target)
    (hnew : R.Has w new) : Stays (.resolved R) w (Code.storeInto op target keys new) := by
  refine change fun {s r t} hs heq => ?_
  obtain ⟨stored, hcombine, heq⟩ := Error.bind_eq_ok_iff.mp heq
  obtain ⟨⟨updated, u⟩, hassign, heq⟩ := Error.bind_eq_ok_iff.mp heq
  cases heq
  have hpresent := hs.within.follow htarget keys
  obtain ⟨w₁, hle, hmarked, hheld⟩ := hs.hold (Realm.has_combine hpresent hnew hcombine)
  obtain ⟨w₂, hle₂, hu, _⟩ := hmarked.assign (R.mono hle htarget) hheld hassign
  exact ⟨w₂, R.trans hle hle₂, hu, R.mono hle₂ hheld⟩

theorem setProgress (key : String) (n : Nat) : Stays (.any R) w (Rule.setProgress key n) := by
  refine change fun {s _ t} hs heq => ?_
  obtain ⟨u, hset, heq⟩ := Error.bind_eq_ok_iff.mp heq
  cases heq
  obtain ⟨w₁, hle, hu⟩ := hs.setKeys (Realm.has_ofNat n) hset
  exact ⟨w₁, hle, hu, trivial⟩

end Stays

theorem stepContract_stays (R : Realm) : StepContract R fun _ φ w m => Stays φ w m where
  pure := .pure
  raise _ := .throw _
  get := .get
  write _ := .modifyGet (fun _ => rfl) (fun _ => rfl) (fun _ => rfl) fun _ => rfl
  randomIndex _ := .modifyGet (fun _ => rfl) (fun _ => rfl) (fun _ => rfl) fun _ => rfl
  randomUnit := .modifyGet (fun _ => rfl) (fun _ => rfl) (fun _ => rfl) fun _ => rfl
  bind := .bind

theorem contract_stays {call : Caller} (hcall : ∀ {w : R.Stage} (f : Function) {args : List Value},
    (∀ v ∈ args, R.Has w v) → Stays (.value R) w (call f args)) :
    Contract R fun _ φ w m => Stays φ w (m call) where
  pure := .pure
  raise _ := .throw _
  get := .get
  write := (stepContract_stays R).write
  randomIndex := (stepContract_stays R).randomIndex
  randomUnit := (stepContract_stays R).randomUnit
  storeName op root keys _ hnew := .storeName op root keys hnew
  storeInto op keys _ _ htarget hnew := .storeInto op keys htarget hnew
  call _ hargs := hcall _ hargs
  bind := .bind

theorem stays_runWith {call : Caller} (hcall : Contract R fun _ φ w m => Stays φ w (m call))
    (g : ScriptFunction) {args : List Value} (hargs : ∀ v ∈ args, R.Has w v) :
    Stays (.value R) w (g.runWith call args) := by
  refine (Stays.holdAll hargs).bind fun w₁ held _ hheld => .inScope ?_ ?_
  · rintro _ ⟨⟩
    exact Realm.hasAll_bindings g hheld
  · exact ((hcall.evalCode g.body.code).mapError _).map fun _ _ h => h

theorem stays_callWithin (n : Nat) {w : R.Stage} (f : Function) {args : List Value}
    (hargs : ∀ v ∈ args, R.Has w v) : Stays (.value R) w (Function.callWithin n f args) := by
  induction n generalizing w f args with
  | zero => exact Stays.get.bind fun _ s _ _ => .throw _
  | succ n ih =>
    rw [Function.callWithin_succ]
    refine Stays.asCall ?_
    unfold Function.body
    split
    next b _ => exact (stepContract_stays R).runBuiltin b hargs
    next g _ => exact stays_runWith (contract_stays fun f => ih f) g hargs

theorem stays_call (f : Function) {args : List Value} (hargs : ∀ v ∈ args, R.Has w v) :
    Stays (.value R) w (f.call args) := by
  refine Stays.get.bind fun w₁ s hle _ => ?_
  exact stays_callWithin _ f fun v hv => R.mono hle (hargs v hv)

theorem stays_script (script : Script) : Stays (.resolved R) w script.resolve :=
  ((contract_stays stays_call).evalCode script.code).mapError _

theorem ruleClosed_stays (R : Realm) :
    RuleClosed fun _ m => ∀ w : R.Stage, Stays (.any R) w (m Function.call) where
  pure _ _ := .pure trivial
  get _ := Stays.get.any
  write lines _ := (stepContract_stays R).write lines
  randomIndex n _ := (stepContract_stays R).randomIndex n
  setProgress key n _ := .setProgress key n
  call f _ := (stays_call f fun _ h => absurd h List.not_mem_nil).any
  script script _ := (stays_script script).any
  bind hm hk w := (hm w).bind fun w₁ a _ _ => hk a w₁

/-- Whatever a rule gives, it leaves a store of the realm. -/
theorem stays_rule (rule : Rule) : Stays (.any R) w rule.resolve := by
  rw [← Rule.resolveWith_call]
  exact (ruleClosed_stays R).resolveWith rule w

end TextAdventure.Eval
