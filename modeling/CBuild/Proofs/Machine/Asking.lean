import CBuild.Machine.Host
import CBuild.Source.Discovery
import CBuild.Proofs.Machine.Acting

/-! Work that asks a machine and tells of it, but changes none of its files. The discovery of sources is such. -/

namespace CBuild

namespace Machine

variable {α β : Type} {x : StateM Machine α} {f : α → StateM Machine β}

/-- Whatever the machine, the work leaves the files and the directory that paths start at. -/
def Asks (x : StateM Machine α) : Prop :=
  ∀ m, (x.run m).2.tree = m.tree ∧ (x.run m).2.here = m.here

theorem asks_pure (a : α) : Asks (pure a) :=
  fun _ => ⟨rfl, rfl⟩

theorem Asks.bind (hx : Asks x) (hf : ∀ a, Asks (f a)) : Asks (x >>= f) := by
  intro m
  obtain ⟨htree, hhere⟩ := hx m
  obtain ⟨htree', hhere'⟩ := hf (x.run m).1 (x.run m).2
  rw [StateT.run_bind]
  exact ⟨htree'.trans htree, hhere'.trans hhere⟩

theorem Asks.mapM {xs : List α} (h : ∀ a ∈ xs, Asks (f a)) : Asks (xs.mapM f) := by
  induction xs with
  | nil => exact asks_pure _
  | cons a xs ih =>
    rw [List.forall_mem_cons] at h
    rw [List.mapM_cons]
    exact h.1.bind fun _ => (ih h.2).bind fun _ => asks_pure _

theorem Asks.forM {xs : List α} {g : α → StateM Machine PUnit} (h : ∀ a, Asks (g a)) : Asks (xs.forM g) := by
  induction xs with
  | nil => exact asks_pure _
  | cons a xs ih =>
    show Asks (g a >>= fun _ => xs.forM g)
    exact (h a).bind fun _ => ih

theorem Asks.action_bind {a : Action (StateM Machine) α} {f : α → Action (StateM Machine) β} (ha : Asks a.run)
    (hf : ∀ x, Asks (f x).run) : Asks (a >>= f).run := by
  rw [ExceptT.run_bind]
  refine ha.bind fun r => ?_
  cases r with
  | error e => exact asks_pure _
  | ok x => exact hf x

theorem asks_lift (hx : Asks x) : Asks (liftM x : Action (StateM Machine) α).run :=
  hx.bind fun _ => asks_pure _

theorem Asks.of_on {a : Action (StateM Machine) α} {r : Except Failure α} {m n : Machine} (ha : Asks a.run)
    (h : a.on m = (r, n)) : n.tree = m.tree ∧ n.here = m.here := by
  have hm := ha m
  rw [Action.on] at h
  rwa [h] at hm

section Requests

theorem asks_kind (p : Path) : Asks (Host.kind? p) :=
  fun _ => ⟨rfl, rfl⟩

theorem asks_isDirectory (p : Path) : Asks (Host.isDirectory p) :=
  (asks_kind p).bind fun _ => asks_pure _

theorem asks_isFile (p : Path) : Asks (Host.isFile p) :=
  (asks_kind p).bind fun _ => asks_pure _

theorem asks_entriesIn (p : Path) : Asks (Host.entriesIn p) :=
  fun _ => ⟨rfl, rfl⟩

theorem asks_deepest : Asks (Host.deepest) :=
  fun _ => ⟨rfl, rfl⟩

theorem asks_readBytes (p : Path) : Asks (Host.readBytes p) :=
  fun _ => ⟨rfl, rfl⟩

theorem asks_log (level : Level) (s : String) : Asks (Host.log level s) :=
  fun m => ⟨tree_log level s m, here_log level s m⟩

end Requests

section Discovering

open Source

theorem asks_filesBelow (root : Path) (depth : Nat) (relative : List (List Char)) :
    Asks (Index.filesBelow root depth relative) := by
  induction depth generalizing relative with
  | zero => exact asks_pure _
  | succ depth ih =>
    rw [Index.filesBelow]
    refine (asks_entriesIn _).bind fun entries => ?_
    split
    · exact asks_pure _
    · refine Asks.bind (Asks.mapM fun entry _ => ?_) fun _ => asks_pure _
      dsimp only
      split
      · exact asks_pure _
      · exact ih _
      · refine (asks_isFile _).bind fun leads => ?_
        split
        · exact asks_pure _
        · exact asks_pure _
      · exact asks_pure _

theorem asks_run {ix : Index} {read : Path → StateM Machine (Except OsError Bytes)}
    {note : Note → StateM Machine Unit} (hread : ∀ p, Asks (read p)) (hnote : ∀ n, Asks (note n))
    (s : Resolution) (stack : List (Task ix)) : Asks (Resolution.run read note s stack) := by
  fun_induction Resolution.run read note s stack with
  | case1 s => exact asks_pure _
  | case2 s p stack ih =>
    refine (hread p).bind fun content => ?_
    cases content with
    | error e => exact asks_pure _
    | ok b => exact (Asks.forM fun _ => hnote _).bind fun _ => ih b
  | case3 s stack ih => exact ih
  | case4 s r rest stack h ih => exact ih
  | case5 s r rest stack h c hc hknown ih => exact ih
  | case6 s r rest stack h c hc hnew ih => exact (hnote _).bind fun _ => ih
  | case7 s r rest stack h hc ih => exact ih

theorem asks_build (root : Path) : Asks (Index.build root : Action (StateM Machine) Index).run := by
  refine Asks.action_bind (asks_lift (asks_isDirectory root)) fun directory => ?_
  split
  · refine Asks.action_bind (asks_lift asks_deepest) fun depth => ?_
    refine Asks.action_bind (asks_lift (asks_filesBelow root _ _)) fun files => ?_
    exact Asks.action_bind (asks_lift (asks_log _ _)) fun _ => asks_pure _
  · exact asks_pure _

theorem asks_follow (ix : Index) (entry : Path) :
    Asks (ix.follow entry : Action (StateM Machine) Resolution).run := by
  refine Asks.action_bind (asks_lift (asks_run asks_readBytes (fun _ => asks_log _ _) _ _)) fun found => ?_
  cases found with
  | ok s => exact asks_pure _
  | error e => exact asks_pure _

theorem asks_discover (root entry : Path) :
    Asks (discover root entry : Action (StateM Machine) Discovery).run := by
  refine Asks.action_bind (asks_build root) fun ix => ?_
  refine Asks.action_bind (asks_follow ix _) fun found => ?_
  exact Asks.action_bind (asks_lift (asks_log _ _)) fun _ => asks_pure _

end Discovering

end Machine
end CBuild
