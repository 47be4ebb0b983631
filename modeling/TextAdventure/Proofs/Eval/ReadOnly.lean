import TextAdventure.Code.Eval
import TextAdventure.Proofs.Eval.Steady

/-! # Expressions that only read

Only assignments and calls change the store. An expression without them compiles to code without them,
and the code leaves every store as it is, whether it gives a value or fails.
-/
namespace TextAdventure

namespace Eval

variable {α : Type} {s : Store}

/-- The computation ends in the store it is run from, failed or not. -/
abbrev Keeps (s : Store) (m : Eval α) : Prop :=
  Steady (· = s) m

theorem keeps_iff {m : Eval α} : Keeps s m ↔ (runOn m s).2 = s := by
  constructor
  · rintro ⟨r, hr⟩
    exact (hr s rfl).2
  · intro h
    refine ⟨(runOn m s).1, ?_⟩
    rintro t rfl
    exact ⟨rfl, h⟩

theorem keeps_get : Keeps s get :=
  keeps_iff.mpr rfl

theorem Keeps.inScope {scope : Scope} {m : Eval α} (hm : Keeps (s.openScope scope) m) :
    Keeps s (inScope scope m) := by
  rw [keeps_iff] at hm ⊢
  rw [runOn_inScope, hm]
  rfl

/-- From whatever store it is run, the computation leaves the store as it is and gives the same again. -/
def Repeatable (m : Eval α) : Prop :=
  ∀ s, (runOn m s).2 = s ∧ runOn m (runOn m s).2 = runOn m s

theorem repeatable_of_keeps {m : Eval α} (h : ∀ s, Keeps s m) : Repeatable m := by
  intro s
  have hs : (runOn m s).2 = s := keeps_iff.mp (h s)
  exact ⟨hs, by rw [hs]⟩

end Eval

/-- There is no assignment and no call in the expression. -/
inductive Expr.ReadOnly : Expr → Prop
  | literal (value : Literal) (span : Span) : ReadOnly (.literal value span)
  | identifier (name : String) (span : Span) : ReadOnly (.identifier name span)
  | array {items : List Expr} {span : Span} (h : ∀ e ∈ items, ReadOnly e) :
      ReadOnly (.array items span)
  | object {entries : List (String × Expr)} {span : Span} (h : ∀ entry ∈ entries, ReadOnly entry.2) :
      ReadOnly (.object entries span)
  | unary {op : UnaryOp} {operand : Expr} {span : Span} (h : ReadOnly operand) :
      ReadOnly (.unary op operand span)
  | binary {op : BinaryOp} {left right : Expr} {span : Span} (hl : ReadOnly left)
      (hr : ReadOnly right) : ReadOnly (.binary op left right span)
  | logical {op : LogicalOp} {left right : Expr} {span : Span} (hl : ReadOnly left)
      (hr : ReadOnly right) : ReadOnly (.logical op left right span)
  | conditional {test consequent alternate : Expr} {span : Span} (ht : ReadOnly test)
      (hc : ReadOnly consequent) (ha : ReadOnly alternate) :
      ReadOnly (.conditional test consequent alternate span)
  | member {container : Expr} {name : String} {span : Span} (h : ReadOnly container) :
      ReadOnly (.member container name span)
  | element {container key : Expr} {span : Span} (hc : ReadOnly container) (hk : ReadOnly key) :
      ReadOnly (.element container key span)
  | sequence {items : List Expr} {span : Span} (h : ∀ e ∈ items, ReadOnly e) :
      ReadOnly (.sequence items span)
  | arrow {pattern body : Expr} {span : Span} (hp : ReadOnly pattern) (hb : ReadOnly body) :
      ReadOnly (.arrow pattern body span)

namespace Code

/-- There is no assignment and no call in the code. -/
inductive ReadOnly : Code → Prop
  | constant (value : Literal) : ReadOnly (.constant value)
  | name (n : String) : ReadOnly (.name n)
  | list {items : List Code} (h : ∀ c ∈ items, ReadOnly c) : ReadOnly (.list items)
  | record {entries : List (String × Code)} (h : ∀ entry ∈ entries, ReadOnly entry.2) :
      ReadOnly (.record entries)
  | unary {op : UnaryOp} {operand : Code} (h : ReadOnly operand) : ReadOnly (.unary op operand)
  | binary {op : BinaryOp} {left right : Code} (hl : ReadOnly left) (hr : ReadOnly right) :
      ReadOnly (.binary op left right)
  | logical {op : LogicalOp} {left right : Code} (hl : ReadOnly left) (hr : ReadOnly right) :
      ReadOnly (.logical op left right)
  | conditional {test consequent alternate : Code} (ht : ReadOnly test) (hc : ReadOnly consequent)
      (ha : ReadOnly alternate) : ReadOnly (.conditional test consequent alternate)
  | member {container key : Code} (hc : ReadOnly container) (hk : ReadOnly key) :
      ReadOnly (.member container key)
  | sequence {items : List Code} (h : ∀ c ∈ items, ReadOnly c) : ReadOnly (.sequence items)

theorem readOnly_ofExprs {es : List Expr} {cs : List Code}
    (h : ∀ e ∈ es, ∀ c, ofExpr e = .ok c → c.ReadOnly) (hcs : ofExprs es = .ok cs) :
    ∀ c ∈ cs, c.ReadOnly := by
  induction es generalizing cs with
  | nil =>
    cases hcs
    exact fun _ hc => absurd hc List.not_mem_nil
  | cons e es ih =>
    rw [ofExprs] at hcs
    obtain ⟨c, hc, hcs⟩ := Error.bind_eq_ok_iff.mp hcs
    obtain ⟨rest, hrest, hcs⟩ := Error.bind_eq_ok_iff.mp hcs
    cases hcs
    have hfirst := h e List.mem_cons_self c hc
    exact List.forall_mem_cons.mpr ⟨hfirst, ih (fun d hd => h d (List.mem_cons_of_mem e hd)) hrest⟩

theorem readOnly_ofEntries {es : List (String × Expr)} {cs : List (String × Code)}
    (h : ∀ entry ∈ es, ∀ c, ofExpr entry.2 = .ok c → c.ReadOnly) (hcs : ofEntries es = .ok cs) :
    ∀ entry ∈ cs, entry.2.ReadOnly := by
  induction es generalizing cs with
  | nil =>
    cases hcs
    exact fun _ hc => absurd hc List.not_mem_nil
  | cons entry es ih =>
    obtain ⟨key, e⟩ := entry
    rw [ofEntries] at hcs
    obtain ⟨c, hc, hcs⟩ := Error.bind_eq_ok_iff.mp hcs
    obtain ⟨rest, hrest, hcs⟩ := Error.bind_eq_ok_iff.mp hcs
    cases hcs
    have hfirst := h _ List.mem_cons_self c hc
    exact List.forall_mem_cons.mpr ⟨hfirst, ih (fun d hd => h d (List.mem_cons_of_mem _ hd)) hrest⟩

theorem readOnly_ofExpr {e : Expr} (h : e.ReadOnly) : ∀ c, ofExpr e = .ok c → c.ReadOnly := by
  induction h with
  | literal value span =>
    intro c hc
    rw [ofExpr] at hc
    cases hc
    exact .constant value
  | identifier name span =>
    intro c hc
    rw [ofExpr] at hc
    cases hc
    exact .name name
  | array _ ih =>
    intro c hc
    rw [ofExpr] at hc
    obtain ⟨items, hitems, hc⟩ := Error.bind_eq_ok_iff.mp hc
    cases hc
    exact .list (readOnly_ofExprs ih hitems)
  | object _ ih =>
    intro c hc
    rw [ofExpr] at hc
    obtain ⟨entries, hentries, hc⟩ := Error.bind_eq_ok_iff.mp hc
    cases hc
    exact .record (readOnly_ofEntries ih hentries)
  | unary _ ih =>
    intro c hc
    rw [ofExpr] at hc
    obtain ⟨operand, ho, hc⟩ := Error.bind_eq_ok_iff.mp hc
    cases hc
    exact .unary (ih operand ho)
  | binary _ _ ihl ihr =>
    intro c hc
    rw [ofExpr] at hc
    obtain ⟨left, hl, hc⟩ := Error.bind_eq_ok_iff.mp hc
    obtain ⟨right, hr, hc⟩ := Error.bind_eq_ok_iff.mp hc
    cases hc
    exact .binary (ihl left hl) (ihr right hr)
  | logical _ _ ihl ihr =>
    intro c hc
    rw [ofExpr] at hc
    obtain ⟨left, hl, hc⟩ := Error.bind_eq_ok_iff.mp hc
    obtain ⟨right, hr, hc⟩ := Error.bind_eq_ok_iff.mp hc
    cases hc
    exact .logical (ihl left hl) (ihr right hr)
  | conditional _ _ _ iht ihc iha =>
    intro c hc
    rw [ofExpr] at hc
    obtain ⟨test, ht, hc⟩ := Error.bind_eq_ok_iff.mp hc
    obtain ⟨consequent, hcon, hc⟩ := Error.bind_eq_ok_iff.mp hc
    obtain ⟨alternate, ha, hc⟩ := Error.bind_eq_ok_iff.mp hc
    cases hc
    exact .conditional (iht test ht) (ihc consequent hcon) (iha alternate ha)
  | @member container name span _ ih =>
    intro c hc
    rw [ofExpr] at hc
    obtain ⟨container, hcontainer, hc⟩ := Error.bind_eq_ok_iff.mp hc
    cases hc
    exact .member (ih container hcontainer) (.constant (.string name))
  | element _ _ ihc ihk =>
    intro c hc
    rw [ofExpr] at hc
    obtain ⟨container, hcontainer, hc⟩ := Error.bind_eq_ok_iff.mp hc
    obtain ⟨key, hkey, hc⟩ := Error.bind_eq_ok_iff.mp hc
    cases hc
    exact .member (ihc container hcontainer) (ihk key hkey)
  | sequence _ ih =>
    intro c hc
    rw [ofExpr] at hc
    obtain ⟨items, hitems, hc⟩ := Error.bind_eq_ok_iff.mp hc
    cases hc
    exact .sequence (readOnly_ofExprs ih hitems)
  | arrow =>
    intro c hc
    rw [ofExpr] at hc
    cases hc

open Eval

section Lists

variable {call : Caller} {s : Store}

theorem keeps_evalAll {cs : List Code} (h : ∀ c ∈ cs, Keeps s (c.eval call)) :
    Keeps s (evalAll call cs) := by
  induction cs with
  | nil =>
    rw [evalAll]
    exact steady_pure []
  | cons c cs ih =>
    have hfirst := h c List.mem_cons_self
    have hrest := ih fun d hd => h d (List.mem_cons_of_mem c hd)
    rw [evalAll]
    exact hfirst.bind fun v => hrest.bind fun vs => steady_pure _

theorem keeps_evalEntries {entries : List (String × Code)}
    (h : ∀ entry ∈ entries, Keeps s (entry.2.eval call)) : Keeps s (evalEntries call entries) := by
  induction entries with
  | nil =>
    rw [evalEntries]
    exact steady_pure []
  | cons entry entries ih =>
    have hfirst := h entry List.mem_cons_self
    have hrest := ih fun d hd => h d (List.mem_cons_of_mem entry hd)
    rw [evalEntries]
    exact hfirst.bind fun v => hrest.bind fun vs => steady_pure _

theorem keeps_evalLast {cs : List Code} (h : ∀ c ∈ cs, Keeps s (c.eval call)) (last : Resolved) :
    Keeps s (evalLast call cs last) := by
  induction cs generalizing last with
  | nil =>
    rw [evalLast]
    exact steady_pure last
  | cons c cs ih =>
    have hfirst := h c List.mem_cons_self
    rw [evalLast]
    exact hfirst.bind fun r => ih (fun d hd => h d (List.mem_cons_of_mem c hd)) r

end Lists

/-- Code that only reads leaves every store as it is, however functions are called. -/
theorem ReadOnly.keeps {c : Code} (h : c.ReadOnly) (call : Caller) (s : Store) :
    Keeps s (c.eval call) := by
  induction h with
  | constant value =>
    rw [eval]
    exact steady_pure _
  | name n =>
    rw [eval]
    apply keeps_get.bind
    intro t
    split
    · exact steady_pure _
    · exact steady_throw _
  | list _ ih =>
    rw [eval]
    exact (keeps_evalAll ih).bind fun vs => steady_pure _
  | record _ ih =>
    rw [eval]
    exact (keeps_evalEntries ih).bind fun vs => steady_pure _
  | unary _ ih =>
    rw [eval]
    exact ih.bind fun v => (steady_ofExcept _).bind fun w => steady_pure _
  | binary _ _ ihl ihr =>
    rw [eval]
    exact ihl.bind fun l => ihr.bind fun r => (steady_ofExcept _).bind fun w => steady_pure _
  | logical _ _ ihl ihr =>
    rw [eval]
    apply ihl.bind
    intro l
    split
    · exact steady_pure l
    · exact ihr
  | conditional _ _ _ iht ihc iha =>
    rw [eval]
    apply iht.bind
    intro b
    split
    · exact ihc
    · exact iha
  | member _ _ ihc ihk =>
    rw [eval]
    apply ihc.bind
    intro v
    dsimp only
    split
    · exact steady_pure _
    · exact ihk.bind fun k => keeps_get.bind fun t => steady_pure _
  | sequence _ ih =>
    rw [eval]
    exact keeps_evalLast ih _

end Code

open Eval

theorem Expr.ReadOnly.keeps_resolve {e : Expr} {script : Script} (h : e.ReadOnly)
    (hcode : Code.ofExpr e = .ok script.code) (s : Store) : Keeps s script.resolve := by
  have hread : script.code.ReadOnly := Code.readOnly_ofExpr h script.code hcode
  exact (hread.keeps Function.call s).mapError _

end TextAdventure
