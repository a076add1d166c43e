/-
  CoreCalculus/Proofs/Progress.lean
  =================================
  **What a typed program gets stuck on.**

  Evaluation rebuilds a node that no rule applies to, so values need not look like their
  types.  In a typed program the only node that stays is a comparison, of functions or
  of other operands without an order; other nodes stay only while they wait for one
  (`Blocked`).  Every other value has the shape of its type (`HasShape`): by induction on
  the value, an operand that is not blocked is a literal of the right kind, a head that is
  not blocked is an abstraction or a constructor with arguments left to take.

  The shape of a data type is read off its current declaration, under its own name; so
  the registry has to be one that was put together by declarations (`Context.Built`).
-/
import CoreCalculus.Proofs.Closed
import CoreCalculus.Proofs.Preservation

namespace CoreCalculus

/-! ### Built contexts -/

/-- The contexts that can be put together. -/
inductive Context.Built : Context → Prop
  | empty : Built .empty
  | extend {c : Context} (x : String) (s : Scheme) : Built c → Built (c.extend x s)
  | extendAll {c : Context} (bindings : List (String × Scheme)) :
      Built c → Built (c.extendAll bindings)
  | withData {c : Context} (d : DataType) : Built c → Built (c.withData d)

namespace Context.Built

variable {c : Context}

/-- A declaration is kept under its name. -/
theorem name_eq (hc : c.Built) {name : String} {d : DataType}
    (h : c.registry.types.get? name = some d) : d.name = name := by
  induction hc generalizing name d with
  | empty => cases h
  | extend x s _ ih => exact ih h
  | extendAll bindings _ ih => exact ih h
  | withData e _ ih =>
    rw [Context.withData, Registry.register, Table.get?_insert] at h
    split at h
    · rename_i hname
      cases h
      exact hname.symm
    · exact ih h

/-- A constructor is found in the current declaration of the data type that owns it. -/
theorem declared (hc : c.Built) {name : String} {d : DataType} {s : Signature}
    (h : c.registry.constructor? name = some (d, s)) :
    c.registry.types.get? d.name = some d ∧ d.find? name = some s := by
  simp only [Registry.constructor?, Option.bind_eq_bind, Option.bind_eq_some_iff,
    Option.pure_def, Option.some.injEq, Prod.mk.injEq] at h
  obtain ⟨owner, _, e, he, s', hs, rfl, rfl⟩ := h
  exact ⟨hc.name_eq he ▸ he, hs⟩

end Context.Built

/-! ### Values -/

/-- A comparison that stays as it is, or a node that waits for one. -/
inductive Blocked : Term → Prop
  | comparison {op : BinaryOp} {a b : Term} : op.isComparison → a.Evaluated → b.Evaluated →
      op.onTerms a b = .ok none → Blocked (.binary op a b)
  | left (op : BinaryOp) {a b : Term} : Blocked a → b.Evaluated → Blocked (.binary op a b)
  | right (op : BinaryOp) {a b : Term} : a.Evaluated → Blocked b → Blocked (.binary op a b)
  | not {a : Term} : Blocked a → Blocked (.not a)
  | cond {a : Term} (b e : Term) : Blocked a → Blocked (.cond a b e)
  | app {f a : Term} : Blocked f → a.Evaluated → Blocked (.app f a)

/-- A value looks like its type. -/
inductive HasShape (r : Registry) : Ty → Term → Prop
  | int (n : Int64) : HasShape r .int (.lit (.int n))
  | bool (b : Bool) : HasShape r .bool (.lit (.bool b))
  | abs (σ τ : Ty) (x : String) (t : Term) : HasShape r (.func σ τ) (.abs x t)
  | partially (σ τ : Ty) {name : String} {d : DataType} {s : Signature} {args : List Term} :
      r.constructor? name = some (d, s) → args.length < s.args.length →
      HasShape r (.func σ τ) ((Term.ctor name).apply args)
  | ctor (params : List Ty) {type name : String} {d : DataType} {s : Signature}
      {args : List Term} : r.types.get? type = some d → d.find? name = some s →
      args.length = s.args.length → HasShape r (.adt type params) ((Term.ctor name).apply args)

/-- A blocked term is a value: neither data nor an abstraction, it lets no rule apply. -/
theorem Blocked.evaluated {v : Term} (h : Blocked v) :
    v.Evaluated ∧ v.isData = false ∧ v.literal? = none ∧ ∀ x t, v ≠ .abs x t := by
  induction h with
  | comparison _ ha hb hnone => exact ⟨.binary ha hb hnone, rfl, rfl, by simp⟩
  | left op _ hb ih =>
    obtain ⟨ha, hdata, hlit, -⟩ := ih
    exact ⟨.binary ha hb (by simp [BinaryOp.onTerms, hdata, hlit]), rfl, rfl, by simp⟩
  | right op ha _ ih =>
    obtain ⟨hb, hdata, hlit, -⟩ := ih
    exact ⟨.binary ha hb (by simp [BinaryOp.onTerms, hdata, hlit]), rfl, rfl, by simp⟩
  | not _ ih =>
    obtain ⟨ha, -, hlit, -⟩ := ih
    exact ⟨.not ha (by rintro b rfl; cases hlit), rfl, rfl, by simp⟩
  | cond b e _ ih =>
    obtain ⟨ha, -, hlit, -⟩ := ih
    exact ⟨.cond b e ha (by rintro b rfl; cases hlit), rfl, rfl, by simp⟩
  | app _ ha ih =>
    obtain ⟨hf, hdata, hlit, habs⟩ := ih
    exact ⟨.app hf ha habs, by simp [Term.isData, hlit, hdata], rfl, by simp⟩

/-! ### Canonical forms -/

/-- Arguments on the way to a data type are arguments of the type on the other side. -/
theorem Ty.exists_of_curried_eq {σs τs : List Ty} {τ : Ty} {name : String} {params : List Ty}
    (h : curried σs τ = curried τs (.adt name params)) :
    ∃ rest, τs = σs ++ rest ∧ τ = curried rest (.adt name params) := by
  induction σs generalizing τs with
  | nil => exact ⟨τs, rfl, h⟩
  | cons σ σs ih =>
    cases τs with
    | nil => cases h
    | cons ρ τs =>
      obtain ⟨rfl, htail⟩ := Ty.func.inj h
      obtain ⟨rest, rfl, hτ⟩ := ih htail
      exact ⟨rest, rfl, hτ⟩

section

variable {c : Context} {θ : Assignment}

/-- A constructor takes no more arguments than its signature lists, and is a function until it
    has taken them all. -/
theorem HasType.shape_of_apply_ctor (hc : c.Built) {name : String} {args : List Term} {τ : Ty}
    (h : HasType (c.subst θ) ((Term.ctor name).apply args) τ) :
    HasShape c.registry τ ((Term.ctor name).apply args) := by
  obtain ⟨σs, hhead, hargs⟩ := hasType_apply_iff.1 h
  obtain ⟨d, s, hname, g, hcurried⟩ := hasType_subst_ctor_iff.1 hhead
  rw [DataType.constructorScheme, DataType.selfType, Ty.assign, Ty.subst_curried, ← Ty.assign,
    Ty.assign_adt] at hcurried
  obtain ⟨rest, hrest, rfl⟩ := Ty.exists_of_curried_eq hcurried
  have hlength : s.args.length = args.length + rest.length := by
    rw [hargs.length_eq, ← List.length_append, ← hrest, List.length_map]
  obtain ⟨htype, hfind⟩ := hc.declared hname
  cases rest with
  | nil => exact .ctor _ htype hfind hlength.symm
  | cons ρ rest =>
    rw [List.length_cons] at hlength
    exact .partially ρ _ hname (by omega)

theorem HasShape.of_bool {r : Registry} {v : Term} (h : HasShape r .bool v) :
    ∃ b, v = .lit (.bool b) := by
  generalize hτ : Ty.bool = τ at h
  cases h with
  | bool b => exact ⟨b, rfl⟩
  | int n => simp [Ty.bool, Ty.int] at hτ
  | abs | partially | ctor => cases hτ

theorem HasShape.of_int {r : Registry} {v : Term} (h : HasShape r .int v) :
    ∃ n, v = .lit (.int n) := by
  generalize hτ : Ty.int = τ at h
  cases h with
  | int n => exact ⟨n, rfl⟩
  | bool b => simp [Ty.bool, Ty.int] at hτ
  | abs | partially | ctor => cases hτ

/-- On operands of its types, only a comparison has neither a result nor a fault. -/
theorem BinaryOp.Typed.comparison_of_stuck {op : BinaryOp} {σ τ : Ty} (hop : op.Typed σ τ)
    {r : Registry} {a b : Term} (ha : HasShape r σ a) (hb : HasShape r σ b)
    (hstuck : op.onTerms a b = .ok none) : op.isComparison := by
  have hexact : ∀ (r : Int) (f : Fault → EvalError),
      ((exact r).map (some ∘ Literal.int)).mapError f ≠ .ok none := by
    intro r f
    cases exact r <;> simp [Except.map, Except.mapError]
  cases op with
  | eq | le => rfl
  | add | sub | mul =>
    obtain ⟨rfl, -⟩ := hop
    obtain ⟨m, rfl⟩ := ha.of_int
    obtain ⟨n, rfl⟩ := hb.of_int
    exact absurd hstuck (hexact _ _)
  | div =>
    obtain ⟨rfl, -⟩ := hop
    obtain ⟨m, rfl⟩ := ha.of_int
    obtain ⟨n, rfl⟩ := hb.of_int
    simp only [onTerms, Term.literal?, compute, reduceCtorEq, if_false] at hstuck
    split at hstuck
    · cases hstuck
    · exact absurd hstuck (hexact _ _)
  | and | or =>
    obtain ⟨rfl, -⟩ := hop
    obtain ⟨m, rfl⟩ := ha.of_bool
    obtain ⟨n, rfl⟩ := hb.of_bool
    cases hstuck

/-- **Canonical forms.**  A value that is not blocked has the shape of its type. -/
theorem HasType.blocked_or_hasShape (hc : c.Built) {v : Term} {τ : Ty} (hv : v.Evaluated)
    (h : HasType (c.subst θ) v τ) : Blocked v ∨ HasShape c.registry τ v := by
  induction hv generalizing τ with
  | lit l =>
    obtain rfl := hasType_lit_iff.1 h
    cases l with
    | int n => exact .inr (.int n)
    | bool b => exact .inr (.bool b)
  | abs x t =>
    obtain ⟨σ, ρ, -, rfl⟩ := hasType_abs_iff.1 h
    exact .inr (.abs σ ρ x t)
  | ctor name =>
    change HasType _ ((Term.ctor name).apply []) τ at h
    exact .inr (h.shape_of_apply_ctor hc)
  | @app f a _ ha hneutral ihf _ =>
    obtain ⟨_, hf, σ, _, rfl⟩ := hasType_app_iff.1 h
    rcases ihf hf with hblocked | hshape
    · exact .inl (.app hblocked ha)
    · cases hshape with
      | abs _ _ x t => exact absurd rfl (hneutral x t)
      | @partially _ _ name _ _ args _ _ =>
        have hmore : ((Term.ctor name).apply args).app a = (Term.ctor name).apply (args ++ [a]) := by
          rw [Term.apply, Term.apply, List.foldl_append]
          rfl
        rw [hmore] at h ⊢
        exact .inr (h.shape_of_apply_ctor hc)
  | @binary op a b ha hb hstuck iha ihb =>
    obtain ⟨σ, hta, htb, hop⟩ := hasType_binary_iff.1 h
    rcases iha hta with hblocked | hsa
    · exact .inl (.left op hblocked hb)
    rcases ihb htb with hblocked | hsb
    · exact .inl (.right op ha hblocked)
    exact .inl (.comparison (hop.comparison_of_stuck hsa hsb hstuck) ha hb hstuck)
  | @not a _ hneutral ih =>
    obtain ⟨hta, rfl⟩ := hasType_not_iff.1 h
    rcases ih hta with hblocked | hshape
    · exact .inl (.not hblocked)
    · obtain ⟨b, rfl⟩ := hshape.of_bool
      exact absurd rfl (hneutral b)
  | @cond a b e _ hneutral ih =>
    obtain ⟨hta, -, -⟩ := hasType_cond_iff.1 h
    rcases ih hta with hblocked | hshape
    · exact .inl (.cond b e hblocked)
    · obtain ⟨b, rfl⟩ := hshape.of_bool
      exact absurd rfl (hneutral b)

end

/-! ### Progress -/

/-- Shapes do not look at hints. -/
theorem HasShape.of_erase {r : Registry} {τ : Ty} {v : Term} (h : HasShape r τ.erase v) :
    HasShape r τ v := by
  generalize hτ : τ.erase = σ at h
  cases h with
  | int n =>
    cases τ <;> cases hτ
    exact .int n
  | bool b =>
    cases τ <;> cases hτ
    exact .bool b
  | abs σ ρ x t =>
    cases τ <;> cases hτ
    exact .abs _ _ x t
  | partially σ ρ hname hlength =>
    cases τ <;> cases hτ
    exact .partially _ _ hname hlength
  | ctor params htype hfind hlength =>
    cases τ <;> cases hτ
    exact .ctor _ htype hfind hlength

/-- **Progress.**  Evaluation of a closed typed term looks up no name in vain, and yields a value
    of the shape of its type unless it gets stuck on a comparison. -/
theorem Term.evaluation_progress {c : Context} (hc : c.Built) {t : Term} {τ : Ty} {fuel : Nat}
    (hclosed : t.free = []) (hinfer : t.infer? fuel c = some (.ok τ)) :
    (∀ fuel' x, t.eval? fuel' .empty ≠ some (.error (.unboundVariable x))) ∧
      ∀ fuel' v, t.eval? fuel' .empty = some (.ok v) →
        Blocked v ∨ HasShape c.registry τ v := by
  constructor
  · intro fuel' x heval
    obtain ⟨⟨_, s⟩, hrun, rfl⟩ := Option.map_eq_some_iff.1 heval
    exact evaluate_ne_unboundVariable Scope.closed_empty (Scope.closes_empty_iff.2 hclosed) hrun
  · intro fuel' v heval
    obtain ⟨θ, hθ⟩ := principal_of_infer? hinfer
    obtain ⟨⟨_, s⟩, hrun, rfl⟩ := Option.map_eq_some_iff.1 heval
    have htyped : HasType (c.subst θ) v τ.erase := hθ.typed.evaluate hrun
    exact (htyped.blocked_or_hasShape hc (Evaluates.of_evaluate hrun).evaluated).imp_right
      HasShape.of_erase

/-- The branch that is taken is a constructor that waits for its second argument. -/
theorem evaluation_progress_partial :
    let a : TypeVar := ⟨0, none⟩
    let c := Context.empty.withData
      ⟨"list", [a], [⟨"Nil", []⟩, ⟨"Cons", [.var a, .adt "list" [.var a]]⟩]⟩
    let t : Term := .cond (.binary .le (.lit (.int 1)) (.lit (.int 2)))
      (.app (.ctor "Cons") (.binary .add (.lit (.int 1)) (.lit (.int 1))))
      (.abs "l" (.var "l"))
    let v : Term := .app (.ctor "Cons") (.lit (.int 2))
    let τ : Ty := .func (.adt "list" [.int]) (.adt "list" [.int])
    c.Built ∧ t.free = [] ∧ t.infer? 9 c = some (.ok τ) ∧ t.eval? 9 .empty = some (.ok v) ∧
      (Blocked v ∨ HasShape c.registry τ v) := by
  intro a c t v τ
  have hinfer : t.infer? 9 c = some (.ok τ) := by decide +kernel
  have heval : t.eval? 9 .empty = some (.ok v) := by decide +kernel
  have hc : c.Built := .withData _ .empty
  exact ⟨hc, rfl, hinfer, heval, (Term.evaluation_progress hc rfl hinfer).2 9 v heval⟩

end CoreCalculus
