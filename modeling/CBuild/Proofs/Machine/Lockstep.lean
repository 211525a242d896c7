import CBuild.Failure
import Mathlib.Data.List.Basic

/-! Work on two kinds of systems, step by step. When a relation holds of what is asked of the two systems, it holds of
all work that asks the same and goes by the answers alone. -/

namespace CBuild

variable {m n : Type → Type} [Monad m] [Monad n] {R : (α : Type) → m α → n α → Prop} {α β : Type}

/-- A relation between works of two kinds that holds of two runs when it holds of their steps. -/
structure Lockstep (R : (α : Type) → m α → n α → Prop) : Prop where
  pure : ∀ {α : Type} (a : α), R α (pure a) (pure a)
  bind : ∀ {α β : Type} {x : m α} {y : n α} {f : α → m β} {g : α → n β},
    R α x y → (∀ a, R β (f a) (g a)) → R β (x >>= f) (y >>= g)

namespace Lockstep

theorem mapM [LawfulMonad m] [LawfulMonad n] (hR : Lockstep R) {xs : List α} {f : α → m β} {g : α → n β}
    (h : ∀ a, R β (f a) (g a)) : R (List β) (xs.mapM f) (xs.mapM g) := by
  induction xs with
  | nil => exact hR.pure []
  | cons a xs ih =>
    rw [List.mapM_cons, List.mapM_cons]
    exact hR.bind (h a) fun _ => hR.bind ih fun _ => hR.pure _

theorem forM (hR : Lockstep R) {xs : List α} {f : α → m PUnit} {g : α → n PUnit}
    (h : ∀ a, R PUnit (f a) (g a)) : R PUnit (xs.forM f) (xs.forM g) := by
  induction xs with
  | nil => exact hR.pure _
  | cons a xs ih => exact hR.bind (h a) fun _ => ih

theorem filterM (hR : Lockstep R) {xs : List α} {f : α → m Bool} {g : α → n Bool} (h : ∀ a, R Bool (f a) (g a)) :
    R (List α) (xs.filterM f) (xs.filterM g) := by
  have haux (kept : List α) : R (List α) (xs.filterAuxM f kept) (xs.filterAuxM g kept) := by
    induction xs generalizing kept with
    | nil => exact hR.pure kept
    | cons a xs ih => exact hR.bind (h a) fun _ => ih _
  exact hR.bind (haux []) fun _ => hR.pure _

theorem anyM (hR : Lockstep R) {xs : List α} {f : α → m Bool} {g : α → n Bool} (h : ∀ a, R Bool (f a) (g a)) :
    R Bool (xs.anyM f) (xs.anyM g) := by
  induction xs with
  | nil => exact hR.pure false
  | cons a xs ih =>
    refine hR.bind (h a) fun found => ?_
    cases found with
    | true => exact hR.pure true
    | false => exact ih

theorem action_bind (hR : Lockstep R) {a : Action m α} {b : Action n α} {f : α → Action m β}
    {g : α → Action n β} (ha : R _ a.run b.run) (hf : ∀ x, R _ (f x).run (g x).run) :
    R _ (a >>= f).run (b >>= g).run := by
  rw [ExceptT.run_bind, ExceptT.run_bind]
  refine hR.bind ha fun r => ?_
  cases r with
  | error e => exact hR.pure _
  | ok x => exact hf x

theorem action_pure (hR : Lockstep R) (a : α) : R _ (Pure.pure a : Action m α).run (Pure.pure a : Action n α).run :=
  hR.pure (Except.ok a)

theorem action_throw [LawfulMonad m] [LawfulMonad n] (hR : Lockstep R) (e : Failure) (f : α → Action m β)
    (g : α → Action n β) : R _ (throw e >>= f).run (throw e >>= g).run := by
  have hrun {m : Type → Type} [Monad m] [LawfulMonad m] (f : α → Action m β) :
      (throw e >>= f).run = Pure.pure (Except.error e) := by
    rw [ExceptT.run_bind, ExceptT.run_throw, pure_bind]
  rw [hrun, hrun]
  exact hR.pure _

theorem action_lift [LawfulMonad m] [LawfulMonad n] (hR : Lockstep R) {x : m α} {y : n α} (h : R α x y) :
    R _ (liftM x : Action m α).run (liftM y : Action n α).run := by
  have hrun {m : Type → Type} [Monad m] [LawfulMonad m] (x : m α) :
      (liftM x : Action m α).run = x >>= fun a => Pure.pure (.ok a) := by
    rw [← map_eq_pure_bind]
    rfl
  rw [hrun, hrun]
  exact hR.bind h fun _ => hR.pure _

theorem action_mapM [LawfulMonad m] [LawfulMonad n] (hR : Lockstep R) {xs : List α} {f : α → Action m β}
    {g : α → Action n β} (h : ∀ a, R _ (f a).run (g a).run) : R _ (xs.mapM f).run (xs.mapM g).run := by
  induction xs with
  | nil => exact hR.action_pure []
  | cons a xs ih =>
    rw [List.mapM_cons, List.mapM_cons]
    exact hR.action_bind (h a) fun _ => hR.action_bind ih fun _ => hR.action_pure _

end Lockstep

/-- One state is seen in another: the work gives the same and does the same to what is seen. -/
theorem lockstep_projects {σ τ : Type} (see : σ → τ) : Lockstep fun α (x : StateM σ α) (y : StateM τ α) =>
    ∀ w, (x.run w).1 = (y.run (see w)).1 ∧ see (x.run w).2 = (y.run (see w)).2 where
  pure _ _ := ⟨rfl, rfl⟩
  bind {α β x y f g} hx hf w := by
    obtain ⟨hanswer, hseen⟩ := hx w
    rw [StateT.run_bind, StateT.run_bind]
    change ((f (x.run w).1).run (x.run w).2).1 = ((g (y.run (see w)).1).run (y.run (see w)).2).1 ∧
      see ((f (x.run w).1).run (x.run w).2).2 = ((g (y.run (see w)).1).run (y.run (see w)).2).2
    rw [← hanswer, ← hseen]
    exact hf _ _

/-- The relation holds of what the two systems are asked about their files, so that it holds of all work that asks
nothing else. -/
structure AskedAlike [Host m] [Host n] (R : (α : Type) → m α → n α → Prop) : Prop extends Lockstep R where
  kind : ∀ p, R _ (Host.kind? p) (Host.kind? p)
  names : ∀ p, R _ (Host.namesIn p) (Host.namesIn p)
  deepest : R _ Host.deepest Host.deepest
  executable : ∀ p, R _ (Host.isExecutable p) (Host.isExecutable p)
  directories : R _ Host.programDirectories Host.programDirectories

namespace AskedAlike

variable [Host m] [Host n]

theorem exists? (hR : AskedAlike R) (p : Path) : R _ (Host.exists? p) (Host.exists? p) :=
  hR.bind (hR.kind p) fun _ => hR.pure _

theorem isFile (hR : AskedAlike R) (p : Path) : R _ (Host.isFile p) (Host.isFile p) :=
  hR.bind (hR.kind p) fun _ => hR.pure _

theorem isDirectory (hR : AskedAlike R) (p : Path) : R _ (Host.isDirectory p) (Host.isDirectory p) :=
  hR.bind (hR.kind p) fun _ => hR.pure _

theorem findsProgram (hR : AskedAlike R) (name : String) : R _ (Host.findsProgram name) (Host.findsProgram name) := by
  unfold Host.findsProgram
  split
  · exact hR.pure false
  dsimp only
  split
  · exact hR.executable _
  · exact hR.bind hR.directories fun _ => hR.anyM fun _ => hR.executable _

end AskedAlike

end CBuild
