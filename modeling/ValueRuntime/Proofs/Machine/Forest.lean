import ValueRuntime.Proofs.Heap.View
import ValueRuntime.Proofs.Machine.Evaluation

/-! # Stored values form a forest

    Everything that is stored is a copy. So a node is stored in at most one slot of a session:
    the nodes form a forest whose roots are in cells and snapshots, or are only held by frames.
    No node is inside itself, every walk through a value ends, and two slots share a node only
    if one of them lies inside the other.
-/

namespace ValueRuntime

namespace Session

variable {s s' : Session}

/-- **Every node is stored at most once.** -/
def Unique (s : Session) : Prop :=
  ∀ slot slot' v w (n : Nat), s.at? slot = some v → s.at? slot' = some w →
    v.node? = some n → w.node? = some n → slot = slot'

/-- A slot lies inside another one when the value there reaches its node. -/
def Inside (s : Session) (slot outer : Slot) : Prop :=
  ∃ node place v, slot = .inNode node place ∧ s.at? outer = some v ∧ s.heap.Reaches v node

theorem unique_new (id name : Bytes) (writable : Bool) : (Session.new id name writable).Unique := by
  intro slot slot' v w n hv _ hn _
  have hlt : n < Heap.empty.nodes.size := (sound_new id name writable).lt_size hv hn
  exact absurd hlt (Nat.not_lt_zero n)

/-- **A change keeps nodes stored once.** An old node stays where it was, and a new one is
    stored once by the change itself. -/
theorem Change.unique (hc : Change s s') (hu : s.Unique) : s'.Unique := by
  intro slot slot' v w n hv hw hvn hwn
  rcases Nat.lt_or_ge n s.heap.nodes.size with hold | hnew
  · have hv' : s.at? slot = some v := by
      rcases hc.kept slot v hv with hkept | hfresh
      · exact hkept
      · have := hfresh n hvn
        omega
    have hw' : s.at? slot' = some w := by
      rcases hc.kept slot' w hw with hkept | hfresh
      · exact hkept
      · have := hfresh n hwn
        omega
    exact hu slot slot' v w n hv' hw' hvn hwn
  · exact hc.once slot slot' v w n hv hw hvn hwn hnew

/-- In a forest a node has at most one parent. -/
theorem Unique.parent_eq (hu : s.Unique) {a b n : NodeId} (ha : s.heap.Child a n)
    (hb : s.heap.Child b n) : a = b := by
  obtain ⟨p, v, hv, hvn⟩ := ha
  obtain ⟨q, w, hw, hwn⟩ := hb
  have hslots := hu (.inNode a p) (.inNode b q) v w n hv hw hvn hwn
  cases hslots
  rfl

/-- Of two ways to one node, one goes on from where the other begins. -/
theorem Unique.paths (hu : s.Unique) {a b n : NodeId}
    (ha : Relation.ReflTransGen s.heap.Child a n) (hb : Relation.ReflTransGen s.heap.Child b n) :
    Relation.ReflTransGen s.heap.Child a b ∨ Relation.ReflTransGen s.heap.Child b a := by
  -- Seen from the node, both ways follow the one chain of its parents.
  have hright : Relator.RightUnique (Function.swap s.heap.Child) :=
    fun _ _ _ hx hy => hu.parent_eq hx hy
  have ha' : Relation.ReflTransGen (Function.swap s.heap.Child) n a :=
    Relation.reflTransGen_swap.mpr ha
  have hb' : Relation.ReflTransGen (Function.swap s.heap.Child) n b :=
    Relation.reflTransGen_swap.mpr hb
  rcases Relation.ReflTransGen.total_of_right_unique hright ha' hb' with hab | hba
  · exact Or.inr (Relation.reflTransGen_swap.mp hab)
  · exact Or.inl (Relation.reflTransGen_swap.mp hba)

/-- A slot that stores a node on the way from another slot is that slot or inside it. -/
theorem Unique.inside_of_path (hu : s.Unique) {slot outer : Slot} {v w : Value} {a b : NodeId}
    (hv : s.at? slot = some v) (hw : s.at? outer = some w) (ha : v.node? = some a)
    (hb : w.node? = some b) (hpath : Relation.ReflTransGen s.heap.Child b a) :
    slot = outer ∨ s.Inside slot outer := by
  rcases hpath.cases_tail with heq | ⟨parent, hparent, p, x, hx, hxa⟩
  · rw [heq] at ha
    exact Or.inl (hu slot outer v w b hv hw ha hb)
  · have hslot := hu slot (.inNode parent p) v x a hv hx ha hxa
    exact Or.inr ⟨parent, p, w, hslot, hw, b, hb, hparent⟩

/-- **Two slots that share a node** are the same, or one lies inside the other. -/
theorem Unique.share (hu : s.Unique) {slot slot' : Slot} {v w : Value} {n : NodeId}
    (hv : s.at? slot = some v) (hw : s.at? slot' = some w) (hvn : s.heap.Reaches v n)
    (hwn : s.heap.Reaches w n) :
    slot = slot' ∨ s.Inside slot slot' ∨ s.Inside slot' slot := by
  obtain ⟨a, ha, hpath⟩ := hvn
  obtain ⟨b, hb, hpath'⟩ := hwn
  rcases hu.paths hpath hpath' with hab | hba
  · rcases hu.inside_of_path hw hv hb ha hab with heq | hinside
    · exact Or.inl heq.symm
    · exact Or.inr (Or.inr hinside)
  · rcases hu.inside_of_path hv hw ha hb hba with heq | hinside
    · exact Or.inl heq
    · exact Or.inr (Or.inl hinside)

end Session

/-- No node of a sound heap is inside itself. -/
theorem Heap.Sound.acyclic {h : Heap} (hs : h.Sound) (n : Nat) :
    ¬Relation.TransGen h.Child n n := by
  intro hcycle
  obtain ⟨m, hpath, hlast⟩ := Relation.TransGen.tail'_iff.mp hcycle
  have := hs.le_of_path hpath
  have := hs.ascending m n hlast
  omega

variable {s s' : Session} {ops : List Operation}

/-- A run keeps nodes stored once. -/
theorem Run.unique (hrun : Run s ops s') (hs : s.Sound) (hu : s.Unique) : s'.Unique := by
  induction hrun with
  | done s => exact hu
  | step allowed _ ih =>
    have hstep := Session.Change.perform hs allowed
    exact ih hstep.sound (hstep.unique hu)

/-- **In every session that a run reaches, stored values form a forest.** Whatever code is
    evaluated and whatever image is loaded there is again a run. -/
theorem stored_values_form_forest {id name : Bytes} {writable : Bool} {ops : List Operation}
    {s : Session} (hrun : Run (.new id name writable) ops s) :
    (∀ slot slot' v w n, s.at? slot = some v → s.at? slot' = some w →
        v.node? = some n → w.node? = some n → slot = slot') ∧
      (∀ n, ¬Relation.TransGen s.heap.Child n n) ∧
      (∀ v, s.heap.Valid v → s.heap.Unfolds v (s.heap.view v)) ∧
      (∀ slot slot' v w n, s.at? slot = some v → s.at? slot' = some w →
        s.heap.Reaches v n → s.heap.Reaches w n →
          slot = slot' ∨ s.Inside slot slot' ∨ s.Inside slot' slot) ∧
      (∀ fuel e, ∃ more, Run s more (s.after (Action.eval fuel e))) ∧
      ∀ image count m, Image.loadGlobals image s.machine = .ok (count, m) →
        ∃ more, Run s more ⟨m, s.callers⟩ := by
  have hsound := hrun.sound (Session.sound_new id name writable)
  have hunique := hrun.unique (Session.sound_new id name writable)
    (Session.unique_new id name writable)
  refine ⟨hunique, hsound.heap.acyclic, fun v hv => hsound.heap.unfolds_view hv, ?_, ?_, ?_⟩
  · intro slot slot' v w n hv hw hvn hwn
    exact hunique.share hv hw hvn hwn
  · intro fuel e
    exact (traced_eval fuel e s hsound).run
  · intro image count m hload
    obtain ⟨more, hmore, -⟩ := run_loadGlobals hsound hload
    exact ⟨more, hmore⟩

/-- A list that is appended to itself, and then stored in a cell. -/
theorem self_append_forms_forest :
    ∃ s, Run (.new [] [] true) [.blank .list, .append 0 (.list 0), .newCell (.list 0)] s ∧
      s.at? (.inNode 0 (.item 0)) = some (.list 1) ∧ s.at? (.cell 0) = some (.list 2) ∧
        ∀ n, ¬Relation.TransGen s.heap.Child n n := by
  have hblank : (Operation.blank .list).Allowed (.new [] [] true) := fun v hv => by cases hv
  have happend : (Operation.append 0 (.list 0)).Allowed
      ((Session.new [] [] true).perform (.blank .list)) := by
    intro v hv id hid
    simp only [Operation.handles, List.mem_cons, List.not_mem_nil, or_false, or_self] at hv
    subst hv
    cases hid
    exact ⟨.list (.of 0 #[]), rfl, trivial⟩
  have hcell : (Operation.newCell (.list 0)).Allowed
      (((Session.new [] [] true).perform (.blank .list)).perform (.append 0 (.list 0))) := by
    intro v hv id hid
    rw [List.mem_singleton.mp hv] at hid ⊢
    cases hid
    exact ⟨_, rfl, trivial⟩
  have hrun := Run.step hblank (Run.step happend (Run.single hcell))
  exact ⟨_, hrun, rfl, rfl, (stored_values_form_forest hrun).2.1⟩

end ValueRuntime
