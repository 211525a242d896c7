import CBuild.Command
import CBuild.Proofs.Glob.Alike
import CBuild.Proofs.Machine.Acting

/-! The compiler command is composed by asking about files. Only what a machine is told changes on the way, and what it
has been told does not change what it answers. -/

namespace CBuild

section Alike

variable {m n : Type → Type} [Monad m] [Monad n] [LawfulMonad m] [LawfulMonad n] [Host m] [Host n]
  {R : (α : Type) → m α → n α → Prop}

theorem Command.alike_sourcesOf (hR : AskedAlike R) (hlog : ∀ level s, R _ (Host.log level s) (Host.log level s))
    (root : Path) (entry : String) :
    R _ (sourcesOf root entry : Action m _).run (sourcesOf root entry : Action n _).run := by
  unfold sourcesOf
  split
  · refine hR.action_bind (Glob.alike_files hR root _) fun found => ?_
    dsimp only
    split
    · exact hR.action_bind (hR.action_lift (hlog _ _)) fun _ => hR.action_pure _
    · exact hR.action_pure _
  · exact hR.action_pure _

theorem Command.alike_compose (hR : AskedAlike R) (hlog : ∀ level s, R _ (Host.log level s) (Host.log level s))
    (c : Manifest) (root : Path) : R _ (compose c root : Action m _).run (compose c root : Action n _).run := by
  unfold compose
  dsimp only
  split
  · exact hR.action_throw _ _ _
  · refine hR.action_bind (hR.action_mapM fun entry => alike_sourcesOf hR hlog root entry) fun sources => ?_
    split
    · exact hR.action_throw _ _ _
    · exact hR.action_pure _

end Alike

namespace Machine

variable {α : Type} {x : StateM Machine α} {f : Machine → α} {m n : Machine}

def untold (m : Machine) : Machine :=
  { m with err := [] }

theorem untold_log (level : Level) (s : String) (m : Machine) : (log level s m).untold = m.untold := by
  unfold log
  split
  · rfl
  · rfl

/-- What has been told makes no difference to the answers of the works, and they do nothing but tell. -/
def OnlyTell (x y : StateM Machine α) : Prop :=
  ∀ m n, n.untold = m.untold →
    (x.run n).1 = (y.run m).1 ∧ (x.run n).2.untold = m.untold ∧ (y.run m).2.untold = m.untold

theorem onlyTell_of_asks (hx : ∀ m, x.run m = (f m, m)) (hf : ∀ m, f m = f m.untold) : OnlyTell x x := by
  intro m n h
  rw [hx, hx]
  refine ⟨?_, h, rfl⟩
  change f n = f m
  rw [hf n, h, ← hf m]

theorem askedAlike_onlyTell : AskedAlike fun α => OnlyTell (α := α) where
  pure _ _ _ h := ⟨rfl, h, rfl⟩
  bind {α β x y f g} hx hf m n h := by
    obtain ⟨hanswer, hn, hm⟩ := hx m n h
    obtain ⟨hanswer', hn', hm'⟩ := hf (y.run m).1 (y.run m).2 (x.run n).2 (hn.trans hm.symm)
    rw [StateT.run_bind, StateT.run_bind]
    refine ⟨?_, ?_, hm'.trans hm⟩
    · change ((f (x.run n).1).run (x.run n).2).1 = _
      rw [hanswer]
      exact hanswer'
    · change ((f (x.run n).1).run (x.run n).2).2.untold = _
      rw [hanswer]
      exact hn'.trans hm
  kind p := onlyTell_of_asks (fun _ => rfl) fun _ => rfl
  names p := onlyTell_of_asks (fun _ => rfl) fun _ => rfl
  deepest := onlyTell_of_asks (fun _ => rfl) fun _ => rfl
  executable p := onlyTell_of_asks (fun _ => rfl) fun _ => rfl
  directories := onlyTell_of_asks (fun _ => rfl) fun _ => rfl

theorem onlyTell_log (level : Level) (s : String) : OnlyTell (Host.log level s) (Host.log level s) :=
  fun m n h => ⟨rfl, (untold_log level s n).trans h, untold_log level s m⟩

end Machine

end CBuild
