import TextAdventure.Proofs.Eval.Limit

/-! # Where evaluation fails

A run goes on in the bodies of the functions that it calls. A body is active from the moment it is entered
until it ends, so when a failure is raised, the active bodies are those that were entered on the way there
and not left again. The error takes the source text of each of them on its way out, and nothing else. Calls
are refused where as many bodies are active as the store allows, so recursion that does not end by itself
fails under that many texts.
-/
namespace TextAdventure

namespace Error

variable {sources : List String} {fault : Fault}

/-- A fault that was raised while texts were evaluated, the outermost first. -/
def evaluating (sources : List String) (fault : Fault) : Error :=
  sources.foldr inExpression (.ofFault fault)

end Error

/-- The store in which the body of a function runs when it is called. -/
def ScriptFunction.entered (g : ScriptFunction) (args : List Value) (s : Store) : Store :=
  let held := s.enterCall.holdAll args
  held.2.openScope (.block (g.bindings held.1))

theorem ScriptFunction.allowance_entered (g : ScriptFunction) (args : List Value) (s : Store) :
    (g.entered args s).allowance = s.allowance - 1 :=
  s.allowance_enterCall

namespace Eval

/-- The run of a computation from a store comes to another computation in some store, where the bodies of
these functions are active besides, the outermost first. -/
inductive Reaches : {α β : Type} → (Caller → Eval α) → Store → List ScriptFunction →
    (Caller → Eval β) → Store → Prop where
  | here {α : Type} (m : Caller → Eval α) (s : Store) : Reaches m s [] m s
  | first {α β γ : Type} {m : Caller → Eval α} (k : α → Caller → Eval β) {p : Caller → Eval γ}
    {s t : Store} {active : List ScriptFunction} :
    Reaches m s active p t → Reaches (fun call => m call >>= fun a => k a call) s active p t
  | next {α β γ : Type} {m : Caller → Eval α} {k : α → Caller → Eval β} {p : Caller → Eval γ}
    {s t u : Store} {passed : List Store} {a : α} {active : List ScriptFunction} :
    Runs m s passed (.ok a) u → Reaches (k a) u active p t →
      Reaches (fun call => m call >>= fun a => k a call) s active p t
  | body {γ : Type} {p : Caller → Eval γ} {f : Function} {g : ScriptFunction} {args : List Value}
    {s t : Store} {active : List ScriptFunction} :
    f.callable = .script g → s.activeCalls < s.maxCalls →
      Reaches (fun call => g.body.code.eval call) (g.entered args s) active p t →
      Reaches (fun call => call f args) s (g :: active) p t

/-- A computation raises a fault itself: as a single step, as a call of a built-in function, or as a call
that is refused. -/
inductive Breaks : {α : Type} → (Caller → Eval α) → Store → Fault → Prop where
  | step {α : Type} {m : Eval α} {s t : Store} {fault : Fault} :
    IsStep m → fault.isStepFault = true → runOn m s = (.error (.ofFault fault), t) →
      Breaks (fun _ => m) s fault
  | builtin {f : Function} {b : Builtin} {args : List Value} {s t : Store} {fault : Fault} :
    f.callable = .builtin b → s.activeCalls < s.maxCalls → fault.isStepFault = true →
      runOn (b.run args) s.enterCall = (.error (.ofFault fault), t) →
      Breaks (fun call => call f args) s fault
  | refused (f : Function) (args : List Value) {s : Store} :
    s.maxCalls ≤ s.activeCalls → Breaks (fun call => call f args) s (.limitExceeded s.maxCalls)

variable {α β γ : Type} {m : Caller → Eval α} {p : Caller → Eval β} {q : Caller → Eval γ}
  {s t u : Store} {active further : List ScriptFunction} {fault : Fault} {call : Caller}

/-- The run comes to a computation that raises the fault, with these bodies active. -/
def FailsIn (m : Caller → Eval α) (s : Store) (active : List ScriptFunction) (fault : Fault) : Prop :=
  ∃ (β : Type) (p : Caller → Eval β) (t : Store), Reaches m s active p t ∧ Breaks p t fault

theorem Breaks.failsIn (h : Breaks m s fault) : FailsIn m s [] fault :=
  ⟨α, m, s, .here m s, h⟩

theorem Reaches.trans (hst : Reaches m s active p t) (htu : Reaches p t further q u) :
    Reaches m s (active ++ further) q u := by
  induction hst with
  | here => exact htu
  | first k _ ih => exact .first k (ih htu)
  | next hm _ ih => exact .next hm (ih htu)
  | body hf hlt _ ih => exact .body hf hlt (ih htu)

theorem Reaches.failsIn (hst : Reaches m s active p t) (h : FailsIn p t further fault) :
    FailsIn m s (active ++ further) fault := by
  obtain ⟨β, q, u, htu, hbreaks⟩ := h
  exact ⟨β, q, u, hst.trans htu, hbreaks⟩

theorem runOn_bind_of_error {m : Eval α} {e : Error} (h : (runOn m s).1 = .error e)
    (k : α → Eval β) : (runOn (m >>= k) s).1 = .error e := by
  rw [runOn_bind]
  rcases hm : runOn m s with ⟨r, t⟩
  rw [hm] at h
  cases h
  rfl

theorem Suffices.exists_body (hcall : Suffices call s) (hlt : s.activeCalls < s.maxCalls) {f : Function}
    {g : ScriptFunction} (hf : f.callable = .script g) (args : List Value) :
    ∃ n, (g.entered args s).allowance ≤ n ∧
      (runOn (call f args) s).1 =
        (runOn (g.body.evalWith (Function.callWithin n)) (g.entered args s)).1.map Resolved.get := by
  obtain ⟨n, hn, hrun⟩ := hcall.exists_entered hlt f args
  refine ⟨n, hn, ?_⟩
  rw [hrun, Function.body, hf]
  simp only [ScriptFunction.runWith, runOn_bind, runOn_modifyGet, runOn_inScope, runOn_map]
  rfl

theorem Breaks.runOn_error (h : Breaks m s fault) (hcall : Suffices call s) :
    (runOn (m call) s).1 = .error (.ofFault fault) := by
  cases h with
  | step _ _ hrun => rw [hrun]
  | @builtin f b args _ t _ hf hlt _ hrun =>
    obtain ⟨n, _, hcalled⟩ := hcall.exists_entered hlt f args
    rw [hcalled, Function.body, hf, hrun]
  | refused f args hle =>
    obtain ⟨n, _, hn⟩ := hcall f args s (Nat.le_refl _)
    rw [hn, runOn_callWithin_of_refused hle]

/-- An error passes the active bodies on its way out and takes the text of each. -/
theorem Reaches.runOn_error (h : Reaches m s active p t)
    (hp : ∀ call, Suffices call t → (runOn (p call) t).1 = .error (.ofFault fault))
    (hcall : Suffices call s) :
    (runOn (m call) s).1 = .error (.evaluating (active.map (·.body.source)) fault) := by
  induction h generalizing call with
  | here => exact hp call hcall
  | first k _ ih => exact runOn_bind_of_error (ih hp hcall) _
  | next hm _ ih =>
    rw [runOn_bind, hm.runOn_eq hcall]
    exact ih hp (hcall.congr hm.sameLimits)
  | @body _ _ f g args s t active hf hlt _ ih =>
    obtain ⟨n, hn, hrun⟩ := hcall.exists_body hlt hf args
    rw [hrun, Script.evalWith, runOn_mapError, ih hp (suffices_callWithin hn)]
    rfl

theorem FailsIn.runOn_error (h : FailsIn m s active fault) (hcall : Suffices call s) :
    (runOn (m call) s).1 = .error (.evaluating (active.map (·.body.source)) fault) := by
  obtain ⟨β, p, t, hreaches, hbreaks⟩ := h
  exact hreaches.runOn_error (fun _ ht => hbreaks.runOn_error ht) hcall

theorem Reaches.limits (h : Reaches m s active p t) :
    t.maxCalls = s.maxCalls ∧ active.length + t.allowance = s.allowance := by
  induction h with
  | here => exact ⟨rfl, Nat.zero_add _⟩
  | first k _ ih => exact ih
  | next hm _ ih =>
    have hlimits := hm.sameLimits
    rwa [hlimits.maxCalls, hlimits.allowance] at ih
  | @body _ _ f g args s t active hf hlt _ ih =>
    refine ⟨ih.1, ?_⟩
    have hpos : 0 < s.allowance := Nat.sub_pos_of_lt hlt
    have hbelow := ih.2
    rw [ScriptFunction.allowance_entered] at hbelow
    rw [List.length_cons]
    omega

/-- A call is refused only where every call that was allowed at first is that of an active body. -/
theorem FailsIn.limit {k : Nat} (h : FailsIn m s active (.limitExceeded k)) :
    k = s.maxCalls ∧ active.length = s.allowance := by
  obtain ⟨β, p, t, hreaches, hbreaks⟩ := h
  obtain ⟨hmax, hlength⟩ := hreaches.limits
  cases hbreaks with
  | step _ hfault _ => cases hfault
  | builtin _ _ hfault _ => cases hfault
  | refused f args hle =>
    rw [Store.allowance_eq_zero_iff.mpr hle, Nat.add_zero] at hlength
    exact ⟨hmax, hlength⟩

/-- The run comes, in its own body, to a call of the given kind. -/
def Recurs (C : Function → List Value → Store → Prop) (m : Caller → Eval α) (s : Store) : Prop :=
  ∃ f args t, Reaches m s [] (fun call => call f args) t ∧ C f args t

/-- The run comes to a call of some kind, and so does the body of every call of this kind that is entered. -/
def Runaway (m : Caller → Eval α) (s : Store) : Prop :=
  ∃ C : Function → List Value → Store → Prop, Recurs C m s ∧
    ∀ f args t, C f args t → t.activeCalls < t.maxCalls →
      ∃ g, f.callable = .script g ∧ Recurs C (fun call => g.body.code.eval call) (g.entered args t)

theorem Runaway.exists_failsIn (h : Runaway m s) :
    ∃ active, FailsIn m s active (.limitExceeded s.maxCalls) := by
  obtain ⟨C, hm, hagain⟩ := h
  -- by induction on how many calls may still be entered
  suffices hall : ∀ n {α : Type} {m : Caller → Eval α} {s : Store}, s.allowance = n → Recurs C m s →
      ∃ active, FailsIn m s active (.limitExceeded s.maxCalls) from hall s.allowance rfl hm
  intro n
  induction n with
  | zero =>
    rintro α m s hs ⟨f, args, t, hreaches, _⟩
    obtain ⟨hmax, hlength⟩ := hreaches.limits
    have hle : t.maxCalls ≤ t.activeCalls := by
      refine Store.allowance_eq_zero_iff.mp ?_
      omega
    exact ⟨_, hmax ▸ hreaches.failsIn (Breaks.refused f args hle).failsIn⟩
  | succ n ih =>
    rintro α m s hs ⟨f, args, t, hreaches, hC⟩
    obtain ⟨hmax, hlength⟩ := hreaches.limits
    have hallowance : t.allowance = n + 1 := by
      rw [List.length_nil, Nat.zero_add] at hlength
      exact hlength.trans hs
    have hlt : t.activeCalls < t.maxCalls := by
      rw [Store.allowance] at hallowance
      omega
    obtain ⟨g, hg, hbody⟩ := hagain f args t hC hlt
    have hentered : (g.entered args t).allowance = n := by
      rw [ScriptFunction.allowance_entered, hallowance, Nat.add_sub_cancel]
    obtain ⟨active, β, p, u, hinner, hbreaks⟩ := ih hentered hbody
    have hfails : FailsIn (fun call => call f args) t (g :: active) (.limitExceeded t.maxCalls) :=
      ⟨β, p, u, .body hg hlt hinner, hbreaks⟩
    exact ⟨_, hmax ▸ hreaches.failsIn hfails⟩

end Eval

end TextAdventure
