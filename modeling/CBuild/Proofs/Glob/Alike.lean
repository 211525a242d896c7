import CBuild.Glob.Expand
import CBuild.Proofs.Machine.Lockstep

/-! The expansion of a pattern on two systems that are asked alike. It goes by the answers to what it asks. -/

namespace CBuild.Glob

variable {depth : Nat} {c : List Token} {rest : List (List Token)} {p : Path} {x : List Char}

section Steps

def goOn {μ : Type → Type} [Monad μ] [Host μ] (depth : Nat) (rest : List (List Token)) (q : Path) : μ (List Path) :=
  if rest = [] then return [q] else expandFrom depth rest q

variable {μ : Type → Type} [Monad μ] [Host μ]

theorem expandFrom_nil (depth : Nat) (p : Path) : (expandFrom depth [] p : μ _) = pure [] := by
  unfold expandFrom
  rfl

theorem expandFrom_literal (h : literal? c = some x) :
    (expandFrom depth (c :: rest) p : μ _) =
      if x = ['.'] ∨ x = ['.', '.'] then do
        if ← Host.isDirectory p then goOn depth rest (child p x) else return []
      else do
        if ← Host.exists? (child p x) then goOn depth rest (child p x) else return [] := by
  unfold expandFrom
  simp only [h]
  rfl

theorem expandFrom_exhausted (h : literal? c = none) :
    (expandFrom 0 (c :: rest) p : μ _) = pure [] := by
  unfold expandFrom
  simp only [h]

theorem expandFrom_listing (h : literal? c = none) :
    (expandFrom (depth + 1) (c :: rest) p : μ _) = do
      match ← Host.namesIn p with
      | .error _ => return []
      | .ok names =>
        let listed ← names.mapM fun n => search (fun cs q => expandFrom depth cs q) (child p n) (c :: rest)
        let dots ←
          if c.head? = some (.char '.') then
            ([['.'], ['.', '.']].filter (matchesName c)).mapM fun n => goOn depth rest (p / ⟨n⟩)
          else pure []
        return listed.flatten ++ dots.flatten := by
  conv => enter [1]; unfold expandFrom
  simp only [h]
  rfl

end Steps

/-- The expansion goes on behind a literal component, and with one listing less behind any other. -/
@[elab_as_elim]
theorem expansion_induction {motive : Nat → List (List Token) → Prop} (nil : ∀ depth, motive depth [])
    (literal : ∀ {depth c rest x}, literal? c = some x → motive depth rest → motive depth (c :: rest))
    (exhausted : ∀ {c rest}, literal? c = none → motive 0 (c :: rest))
    (listing : ∀ {depth c rest}, literal? c = none → (∀ components, motive depth components) →
      motive (depth + 1) (c :: rest)) (depth : Nat) (components : List (List Token)) : motive depth components := by
  induction depth generalizing components with
  | zero =>
    induction components with
    | nil => exact nil 0
    | cons c rest ih =>
      cases hc : literal? c with
      | some x => exact literal hc ih
      | none => exact exhausted hc
  | succ depth ihd =>
    induction components with
    | nil => exact nil (depth + 1)
    | cons c rest ih =>
      cases hc : literal? c with
      | some x => exact literal hc ih
      | none => exact listing hc ihd

section Alike

variable {m n : Type → Type} [Monad m] [Monad n] [Host m] [Host n] {R : (α : Type) → m α → n α → Prop}
  {below : List (List Token) → Path → m (List Path)} {below' : List (List Token) → Path → n (List Path)}

theorem alike_named (hR : AskedAlike R) (hbelow : ∀ cs q, R _ (below cs q) (below' cs q)) (p : Path) (c : List Token)
    (rest : List (List Token)) : R _ (search.named below p c rest) (search.named below' p c rest) := by
  unfold search.named
  split
  · exact hR.pure _
  · split
    · split
      · exact hR.pure _
      · exact hbelow _ _
    · exact hR.pure _

theorem alike_search (hR : AskedAlike R) (hbelow : ∀ cs q, R _ (below cs q) (below' cs q)) (p : Path)
    (components : List (List Token)) : R _ (search below p components) (search below' p components) := by
  unfold search
  split
  · exact hR.pure _
  next rest =>
    refine hR.bind (hR.isDirectory p) fun directory => ?_
    cases directory
    case' true => refine hR.bind (hbelow _ _) fun deeper => ?_
    case' false => refine hR.bind (hR.pure _) fun deeper => ?_
    all_goals
      split
      · exact hR.pure _
      · exact hR.bind (alike_named hR hbelow p _ _) fun _ => hR.pure _
  · exact alike_named hR hbelow p _ _

theorem alike_goOn (hR : AskedAlike R) (hrest : ∀ q, R _ (expandFrom depth rest q) (expandFrom depth rest q)) (q : Path) :
    R _ (goOn depth rest q) (goOn depth rest q) := by
  unfold goOn
  split
  · exact hR.pure _
  · exact hrest q

theorem alike_expandFrom [LawfulMonad m] [LawfulMonad n] (hR : AskedAlike R) (depth : Nat)
    (components : List (List Token)) (p : Path) : R _ (expandFrom depth components p) (expandFrom depth components p) := by
  induction depth, components using expansion_induction generalizing p with
  | nil depth =>
    rw [expandFrom_nil, expandFrom_nil]
    exact hR.pure _
  | literal hc ih =>
    rw [expandFrom_literal hc, expandFrom_literal hc]
    split
    · refine hR.bind (hR.isDirectory p) fun directory => ?_
      split
      · exact alike_goOn hR ih _
      · exact hR.pure _
    · refine hR.bind (hR.exists? _) fun there => ?_
      split
      · exact alike_goOn hR ih _
      · exact hR.pure _
  | exhausted hc =>
    rw [expandFrom_exhausted hc, expandFrom_exhausted hc]
    exact hR.pure _
  | @listing depth c rest hc ih =>
    rw [expandFrom_listing hc, expandFrom_listing hc]
    refine hR.bind (hR.names p) fun names => ?_
    cases names with
    | error e => exact hR.pure _
    | ok names =>
      refine hR.bind (hR.mapM fun n => alike_search hR ih _ _) fun listed => ?_
      dsimp only
      split
      · exact hR.bind (hR.mapM fun n => alike_goOn hR (ih rest) _) fun _ => hR.pure _
      · exact hR.bind (hR.pure _) fun _ => hR.pure _

theorem alike_files [LawfulMonad m] [LawfulMonad n] (hR : AskedAlike R) (base : Path) (pattern : List Char) :
    R _ (files base pattern : Action m _).run (files base pattern : Action n _).run := by
  unfold files
  split
  · exact hR.pure _
  · refine hR.action_bind (hR.action_lift hR.deepest) fun depth => ?_
    refine hR.action_bind (hR.action_lift (alike_expandFrom hR _ _ _)) fun found => ?_
    exact hR.action_bind (hR.action_lift (hR.filterM fun p => hR.isFile p)) fun kept => hR.action_pure _

end Alike

end CBuild.Glob
