import ValueRuntime.Proofs.Machine.Iterations

/-! # Code that iterates

    Code steps an iteration wherever it likes, inside of other expressions too. Unless it begins
    another iteration under the same name, evaluating it is a run of such steps with other work
    between them: `woven_eval` follows the evaluator expression by expression, as `played_eval`
    does. What the steps yield is then known, whatever else the code does.
-/

namespace ValueRuntime

/-! ## Expressions that spare an iterator -/

/-- The expressions that are evaluated as parts of another one in the same frame. The body of a
    function is none of them. -/
def Expr.parts : Expr → List Expr
  | .list items => items
  | .object entries => entries.flatMap fun entry => [entry.1, entry.2]
  | .nest _ _ e => [e]
  | .bind _ e => [e]
  | .assign _ e => [e]
  | .copyTo _ e => [e]
  | .hold _ e => [e]
  | .ifThenElse condition yes no => [condition, yes, no]
  | .seq es => es
  | .times _ e => [e]
  | .iterate _ e => [e]
  | .apply _ args => args
  | .call _ args => args
  | _ => []

/-- **An expression spares an iterator** if it begins no other iteration under its name. Stepping
    the iterator is not excluded. -/
inductive Expr.Spares (name : Bytes) : Expr → Prop where
  | intro {e : Expr} (begins : ∀ part, e ≠ .iterate name part)
      (parts : ∀ part ∈ e.parts, Spares name part) : Spares name e

/-! ## Rules -/

/-- A client with an iteration that stands somewhere in a snapshot. -/
def Client.IsIterating (name : Bytes) (snap : Snapshot) (c : Client) : Prop :=
  ∃ position, c.Iterating name snap position

theorem Client.IsIterating.sound {c : Client} {name : Bytes} {snap : Snapshot}
    (hc : c.IsIterating name snap) : (c.hide name).Sound := by
  obtain ⟨position, hc⟩ := hc
  exact hc.hidden.sound

/-- **A woven action:** steps of an iteration with other work between them do what it does, and its
    result is as expected. -/
def Woven {α : Type} (name : Bytes) (c : Client) (action : Action α)
    (good : Client → α → Prop) : Prop :=
  ∃ yields c', Interleaved name c yields c' ∧ c'.session = c.session.after action ∧
    ∀ a, c.session.result action = .ok a → good c' a

namespace Woven

variable {name : Bytes} {snap : Snapshot} {c : Client} {α β : Type} {x : Action α}
  {f : α → Action β} {P : Client → α → Prop} {Q : Client → β → Prop}

/-- An action that only reads. -/
theorem read {a : α} (hx : c.session.Returns x a c.session) (ha : P c a) : Woven name c x P := by
  refine ⟨[], c, .done c, hx.2.symm, ?_⟩
  intro b hb
  rw [hx.1] at hb
  cases hb
  exact ha

/-- **Other work:** an action that is blind to the iterator, and that the client which does not see
    the iterator can play. -/
theorem of_played (hblind : x.Blind name)
    (hx : Played (c.hide name) x fun d a => P ⟨c.session.after x, d.handles, d.lent⟩ a) :
    Woven name c x P := by
  obtain ⟨hresult, hafter, huntouched⟩ := hblind c.session
  obtain ⟨moves, d, hplay, hsession, hgood⟩ := hx.play
  have hhidden : d = Client.hide name ⟨c.session.after x, d.handles, d.lent⟩ := by
    unfold Client.hide
    rw [← hafter]
    exact congrArg (Client.mk · d.handles d.lent) hsession
  rw [hhidden] at hplay
  refine ⟨[], _, .work hplay huntouched (.done _), rfl, ?_⟩
  intro a ha
  exact hgood a (hresult.trans ha)

/-- **One action after the other.** -/
theorem bind (hc : c.IsIterating name snap) (hx : Woven name c x P)
    (hf : ∀ (c' : Client) (a : α), c'.IsIterating name snap → c.handles ⊆ c'.handles → P c' a →
      Woven name c' (f a) Q) : Woven name c (x >>= f) Q := by
  obtain ⟨yields, c', hrun, hsession, hgood⟩ := hx
  obtain ⟨position, hc⟩ := hc
  obtain ⟨hc', hhandles⟩ := hrun.iterating hc
  cases hresult : c.session.result x with
  | error stop =>
    obtain ⟨hsame, hafter⟩ := Session.bind_of_error hresult f
    refine ⟨yields, c', hrun, hsession.trans hafter.symm, ?_⟩
    intro b hb
    rw [hsame] at hb
    cases hb
  | ok a =>
    obtain ⟨hsame, hafter⟩ := Session.bind_of_ok hresult f
    obtain ⟨more, c'', hmore, hsession', hgood'⟩ :=
      hf c' a ⟨_, hc'⟩ hhandles (hgood a hresult)
    rw [hsession] at hsession' hgood'
    refine ⟨yields ++ more, c'', hrun.append hmore, hsession'.trans hafter.symm, ?_⟩
    rw [hsame]
    exact hgood'

/-- An action may look at the contents of a value first. -/
theorem view {f : Datum → Action β} {v : Value} (hf : Woven name c (f (c.heap.view v)) Q) :
    Woven name c (Action.view v >>= f) Q :=
  hf

end Woven

/-! ## Evaluation -/

section Evaluator

variable {name : Bytes} {snap : Snapshot} {ev : Evaluator} {c : Client}

theorem Client.has_of_subset {c c' : Client} (hmore : c.handles ⊆ c'.handles) {v : Value}
    (hv : c.Has v) : c'.Has v :=
  hv.imp id fun hmem => hmore hmem

/-- **A step of the iteration** itself. -/
theorem woven_next (hc : c.IsIterating name snap) :
    Woven name c (Action.step ev (.next name)) Client.Has := by
  obtain ⟨position, hc⟩ := hc
  obtain ⟨v, s, hnext, -, -⟩ := hc.exists_next
  refine ⟨_, _, .next hnext (.done _), hnext.2.symm, ?_⟩
  intro w hw
  have hsame : c.session.result (Action.step ev (.next name)) = .ok v := hnext.1
  rw [hsame] at hw
  cases hw
  exact .inr List.mem_cons_self

theorem woven_hasNext (hc : c.IsIterating name snap) :
    Woven name c (Action.step ev (.hasNext name)) Client.Has := by
  obtain ⟨position, hc⟩ := hc
  exact .read hc.returns_hasNext (Client.has_boolean _)

variable (hev : ∀ e, e.Spares name → ∀ c : Client, c.IsIterating name snap →
  Woven name c (ev e) Client.Has)

include hev

theorem woven_evalLast (hc : c.IsIterating name snap) {es : List Expr}
    (hes : ∀ e ∈ es, e.Spares name) :
    Woven name c (Action.evalLast ev es) Client.Has := by
  induction es generalizing c with
  | nil => exact .read ⟨rfl, rfl⟩ Client.has_nil
  | cons e rest ih =>
    obtain ⟨he, hrest⟩ := List.forall_mem_cons.mp hes
    cases rest with
    | nil => exact hev e he c hc
    | cons e' rest => exact .bind hc (hev e he c hc) fun c' _ hc' _ _ => ih hc' hrest

theorem woven_evalAll (hc : c.IsIterating name snap) {es : List Expr}
    (hes : ∀ e ∈ es, e.Spares name) :
    Woven name c (Action.evalAll ev es) fun c values => ∀ v ∈ values, c.Has v := by
  induction es generalizing c with
  | nil => exact .read ⟨rfl, rfl⟩ fun v hv => by cases hv
  | cons e rest ih =>
    obtain ⟨he, hrest⟩ := List.forall_mem_cons.mp hes
    refine .bind hc (hev e he c hc) fun c₁ first hc₁ _ hfirst => ?_
    refine .bind hc₁ (ih hc₁ hrest) fun c₂ more _ hhandles hmore => ?_
    refine .read ⟨rfl, rfl⟩ ?_
    intro v hv
    rcases List.mem_cons.mp hv with rfl | hv'
    · exact Client.has_of_subset hhandles hfirst
    · exact hmore v hv'

theorem woven_evalPairs (hc : c.IsIterating name snap) {entries : List (Expr × Expr)}
    (hes : ∀ entry ∈ entries, entry.1.Spares name ∧ entry.2.Spares name) :
    Woven name c (Action.evalPairs ev entries) fun c pairs =>
      (∀ v ∈ pairs.1, c.Has v) ∧ ∀ v ∈ pairs.2, c.Has v := by
  induction entries generalizing c with
  | nil => exact .read ⟨rfl, rfl⟩ ⟨fun v hv => (by cases hv), fun v hv => (by cases hv)⟩
  | cons entry rest ih =>
    obtain ⟨⟨hkey, hcontent⟩, hrest⟩ := List.forall_mem_cons.mp hes
    refine .bind hc (hev _ hkey c hc) fun c₁ k hc₁ _ hk => ?_
    refine .bind hc₁ (hev _ hcontent c₁ hc₁) fun c₂ v hc₂ hhandles₂ hv => ?_
    refine .bind hc₂ (ih hc₂ hrest) fun c₃ more _ hhandles₃ hmore => ?_
    refine .read ⟨rfl, rfl⟩ ⟨?_, ?_⟩
    · intro w hw
      rcases List.mem_cons.mp hw with rfl | hw'
      · exact Client.has_of_subset hhandles₃ (Client.has_of_subset hhandles₂ hk)
      · exact hmore.1 w hw'
    · intro w hw
      rcases List.mem_cons.mp hw with rfl | hw'
      · exact Client.has_of_subset hhandles₃ hv
      · exact hmore.2 w hw'

theorem woven_evalTimes (hc : c.IsIterating name snap) {e : Expr} (he : e.Spares name)
    (count : Nat) {last : Value} (hlast : c.Has last) :
    Woven name c (Action.evalTimes ev e count last) Client.Has := by
  induction count generalizing c last with
  | zero => exact .read ⟨rfl, rfl⟩ hlast
  | succ count ih => exact .bind hc (hev e he c hc) fun c' v hc' _ hv => ih hc' hv

/-- Writing to a cell, and what is done with the cell then. -/
theorem woven_write (hc : c.IsIterating name snap) {e : Expr} (he : e.Spares name) (ref : CellRef)
    {finish : Option CellId → Action Value} (hblind : ∀ cell, (finish cell).Blind name)
    (hfinish : ∀ cell (c : Client), Played c (finish cell) Client.Has) :
    Woven name c (do
      let cell ← Action.resolve ref
      Action.writeCell cell (← ev e)
      finish cell) Client.Has := by
  have hresolve : Woven name c (Action.resolve ref) fun _ _ => True :=
    .of_played (.resolve ref) (played_resolve hc.sound ref)
  refine .bind hc hresolve fun c₁ cell hc₁ _ _ => ?_
  refine .bind hc₁ (hev e he c₁ hc₁) fun c₂ v hc₂ _ hv => ?_
  have hwrite := played_writeCell cell (hc₂.sound.valid hv)
  exact .of_played (.bind (.writeCell cell v) fun _ => hblind cell)
    (.bind hc₂.sound hwrite fun c₃ _ _ _ _ => hfinish cell c₃)

/-- **One expression**, given that its parts are woven and that the bodies it calls are played. -/
theorem woven_step (hplayed : ∀ e (c : Client), c.Sound → Played c (ev e) Client.Has)
    (hc : c.IsIterating name snap) {e : Expr} (he : e.Spares name) :
    Woven name c (Action.step ev e) Client.Has := by
  obtain ⟨hbegins, hparts⟩ := he
  -- Without parts an expression is other work, unless it goes by the name of the iterator.
  have hleaf : (Action.step ev e).Blind name → Woven name c (Action.step ev e) Client.Has :=
    fun hblind => .of_played hblind (played_step hplayed hc.sound e)
  cases e with
  | nil => exact hleaf (.pure _)
  | boolean b => exact hleaf (.pure _)
  | number x => exact hleaf (.pure _)
  | string text => exact hleaf (.pure _)
  | function body captured => exact hleaf (.bind (.resolveAll _) fun _ => .newFunction _ _)
  | get ref => exact hleaf (.bind (.resolve _) fun _ => .plain (.readCell _))
  | argument index => exact hleaf fun _ => ⟨rfl, rfl, rfl⟩
  | held other => exact hleaf fun _ => ⟨rfl, rfl, rfl⟩
  | hasNext other =>
    by_cases hname : other = name
    · rw [hname]
      exact woven_hasNext hc
    · exact hleaf (.hasNext hname)
  | next other =>
    by_cases hname : other = name
    · rw [hname]
      exact woven_next hc
    · exact hleaf (.next hname)
  | list items =>
    exact .bind hc (woven_evalAll hev hc hparts) fun c' values hc' _ hv =>
      .of_played (.plain (.newList values)) (played_newList fun v hmem =>
        hc'.sound.valid (hv v hmem))
  | object entries =>
    have hentries : ∀ entry ∈ entries, entry.1.Spares name ∧ entry.2.Spares name := by
      intro entry hentry
      have hpart : ∀ part ∈ [entry.1, entry.2], part.Spares name :=
        fun part hpart => hparts part (List.mem_flatMap.mpr ⟨entry, hentry, hpart⟩)
      exact ⟨hpart _ List.mem_cons_self, hpart _ (List.mem_cons_of_mem _ List.mem_cons_self)⟩
    exact .bind hc (woven_evalPairs hev hc hentries) fun c' pairs hc' _ hpairs =>
      .of_played (.plain (.tryHeap _)) (played_objectOf hc'.sound
        (fun v hv => hc'.sound.valid (hpairs.1 v hv)) fun v hv => hc'.sound.valid (hpairs.2 v hv))
  | nest count wrapping e =>
    exact .bind hc (hev e (hparts e List.mem_cons_self) c hc) fun c' v hc' _ hv =>
      .of_played (.plain (.wrapTimes _ _ _)) (played_wrapTimes hc'.sound wrapping count hv)
  | bind other e =>
    refine .bind hc (hev e (hparts e List.mem_cons_self) c hc) fun c' v hc' _ hv => ?_
    exact .of_played (.bind (.newCell v) fun _ => .bind (fun _ => ⟨rfl, rfl, rfl⟩) fun _ =>
      .plain (.readCell _)) (played_bind hc'.sound hv)
  | assign ref e =>
    exact woven_write hev hc (hparts e List.mem_cons_self) ref (fun cell => .plain (.readCell cell))
      fun cell c => played_readCell cell
  | copyTo ref e =>
    exact woven_write hev hc (hparts e List.mem_cons_self) ref (fun _ => .pure _)
      fun _ c => .read rfl rfl Client.has_nil
  | hold other e =>
    refine .bind hc (hev e (hparts e List.mem_cons_self) c hc) fun c' v hc' _ hv => ?_
    exact .of_played (.bind (fun _ => ⟨rfl, rfl, rfl⟩) fun _ => .pure v)
      (played_hold hc'.sound hv)
  | ifThenElse condition yes no =>
    have hthree : condition.Spares name ∧ yes.Spares name ∧ no.Spares name :=
      ⟨hparts _ (by simp [Expr.parts]), hparts _ (by simp [Expr.parts]),
        hparts _ (by simp [Expr.parts])⟩
    refine .bind hc (hev condition hthree.1 c hc) fun c' result hc' _ _ => .view ?_
    split
    · exact hev yes hthree.2.1 c' hc'
    · exact hev no hthree.2.2 c' hc'
  | seq es => exact woven_evalLast hev hc hparts
  | times count e =>
    exact woven_evalTimes hev hc (hparts e List.mem_cons_self) count Client.has_nil
  | iterate other e =>
    have hne : other ≠ name := fun hname => hbegins e (by rw [hname])
    refine .bind hc (hev e (hparts e List.mem_cons_self) c hc) fun c' v hc' _ hv => ?_
    exact .of_played (.iterate hne v) (played_iterate (hc'.sound.valid hv))
  | apply primitive args =>
    exact .bind hc (woven_evalAll hev hc hparts) fun c' values hc' _ hv =>
      .of_played (.perform _ _ _ _) (played_performOn hc'.sound primitive hv)
  | call calling args =>
    exact .bind hc (woven_evalAll hev hc hparts) fun c' values hc' _ hv =>
      .of_played (.runCalling _ _) (played_runCalling hplayed hc'.sound calling hv)

end Evaluator

/-- **Evaluating code that spares an iterator** is stepping the iteration with other work between
    the steps, whatever fuel it is given. -/
theorem woven_eval {name : Bytes} {snap : Snapshot} (fuel : Nat) {e : Expr} (he : e.Spares name)
    {c : Client} (hc : c.IsIterating name snap) :
    Woven name c (Action.eval fuel e) Client.Has := by
  induction fuel generalizing e c with
  | zero => exact ⟨[], c, .done c, rfl, fun v hv => by cases hv⟩
  | succ fuel ih => exact woven_step (fun e he c hc => ih he hc) (played_eval fuel) hc he

/-! ## Loading an image -/

/-- Setting a global is blind to iterators. -/
theorem Machine.hide_setGlobal (m : Machine) (name global : Bytes) (value : Datum) :
    (m.hide name).setGlobal global value = (m.setGlobal global value).hide name ∧
      (m.setGlobal global value).frame.iterators.lookup name = m.frame.iterators.lookup name := by
  have hblind : Action.Blind name (do
      let v ← Action.alloc value
      let cell ← Action.globalCell global
      Action.writeCell (some cell) v) :=
    .bind (.plain (.onHeap _)) fun v => .bind (.globalCell global) fun cell =>
      .writeCell (some cell) v
  obtain ⟨-, hafter, hiterator⟩ := hblind ⟨m, []⟩
  exact ⟨congrArg Session.machine hafter, hiterator⟩

theorem Machine.hide_setGlobals (m : Machine) (name : Bytes) (values : List (Bytes × Datum)) :
    values.foldl (fun m e => m.setGlobal e.1 e.2) (m.hide name)
        = (values.foldl (fun m e => m.setGlobal e.1 e.2) m).hide name ∧
      (values.foldl (fun m e => m.setGlobal e.1 e.2) m).frame.iterators.lookup name
        = m.frame.iterators.lookup name := by
  induction values generalizing m with
  | nil => exact ⟨rfl, rfl⟩
  | cons entry rest ih =>
    obtain ⟨hfirst, hiterator⟩ := m.hide_setGlobal name entry.1 entry.2
    obtain ⟨hrest, hiterator'⟩ := ih (m.setGlobal entry.1 entry.2)
    rw [List.foldl_cons, List.foldl_cons, hfirst]
    exact ⟨hrest, hiterator'.trans hiterator⟩

/-- **Loading an image** is other work. -/
theorem interleaved_load {name : Bytes} {snap : Snapshot} {c : Client}
    (hc : c.IsIterating name snap) {image : Image} {count : Nat} {m : Machine}
    (hload : image.loadGlobals c.session.machine = .ok (count, m)) :
    ∃ c', Interleaved name c [] c' ∧ c'.session = ⟨m, c.session.callers⟩ := by
  obtain ⟨values, hvalues, hdone⟩ := bind_eq_ok (image.loadGlobals_eq c.session.machine ▸ hload)
  cases hdone
  obtain ⟨hhidden, huntouched⟩ := c.session.machine.hide_setGlobals name values
  have hload' : image.loadGlobals (c.hide name).session.machine = .ok (values.length,
      (values.foldl (fun m e => m.setGlobal e.1 e.2) c.session.machine).hide name) := by
    rw [Image.loadGlobals_eq, hvalues, ← hhidden]
    rfl
  obtain ⟨ops, hrun, huses⟩ := run_loadGlobals hc.sound.session hload'
  obtain ⟨d, hplay, hsession⟩ := hrun.play huses (c := c.hide name) rfl
  let c' : Client := ⟨⟨values.foldl (fun m e => m.setGlobal e.1 e.2) c.session.machine,
    c.session.callers⟩, d.handles, d.lent⟩
  have hd : d = c'.hide name := congrArg (Client.mk · d.handles d.lent) hsession
  rw [hd] at hplay
  exact ⟨c', .work hplay huntouched (.done c'), rfl⟩

/-! ## What iterations yield -/

/-- Joining strings of one byte. -/
theorem join_bytes (start bytes : Bytes) :
    (bytes.map fun byte => Datum.string [byte]).foldlM Operator.add.apply (.string start)
      = .ok (.string (start ++ bytes)) := by
  induction bytes generalizing start with
  | nil =>
    rw [List.append_nil]
    rfl
  | cons byte rest ih =>
    rw [List.map_cons, List.foldlM_cons]
    show (rest.map fun byte => Datum.string [byte]).foldlM Operator.add.apply
      (.string (start ++ [byte])) = _
    rw [ih, List.append_assoc]
    rfl

/-- **The beginning of an iteration:** none of the elements has been passed. -/
theorem Client.iterating_start {c : Client} {v : Value} (hs : c.Sound)
    (hunique : c.session.Unique) (hleft : c.session.LeftOwned) (hv : c.heap.Valid v)
    (hpaired : c.heap.Paired v) (name : Bytes) :
    Iterating name ⟨c.session.perform (.iterate name v), c.handles, c.lent⟩
      (.of hs.session.heap hv hpaired) 0 := by
  let copied := c.session.perform (.build (.value v))
  have hperform : c.session.perform (.iterate name v)
      = copied.withIterator name ⟨(c.heap.copy v).1, 0⟩ := rfl
  refine ⟨?_, ?_, Nat.zero_le _⟩
  · unfold Client.hide
    rw [hperform, Session.hide_withIterator]
    exact sealed_copy (hs.hide name) (hunique.hide name) (hleft.hide name) hv hpaired
  · rw [hperform]
    exact copied.iterator?_withIterator name _

theorem map_getD_range {α : Type} (xs : List α) (count : Nat) (a : α) :
    (List.range count).map (fun n => xs.getD n a)
      = xs.take count ++ List.replicate (count - xs.length) a := by
  apply List.ext_getElem?
  intro n
  rw [List.getElem?_map, List.getElem?_append, List.length_take, List.getElem?_replicate]
  by_cases hn : n < count
  · rw [List.getElem?_range hn, Option.map_some, List.getD_eq_getElem?_getD]
    by_cases hx : n < xs.length
    · rw [if_pos (by omega), List.getElem?_take_of_lt hn, List.getElem?_eq_getElem hx]
      rfl
    · rw [if_neg (by omega), if_pos (by omega), List.getElem?_eq_none (by omega)]
      rfl
  · rw [List.getElem?_eq_none (by rw [List.length_range]; omega), if_neg (by omega),
      if_neg (by omega)]
    rfl

/-- **An iteration yields the elements that its value had when it began.** However its steps are
    interleaved with other work, which may change the value, its elements and what earlier steps
    handed out: the steps yield those elements in order, with the contents that they had, and nil
    afterwards. There is a next one exactly while some remain, and the next step never fails.
    Joining what an iteration over a string yields gives the string back. Evaluating code, which
    may step the iteration itself, and loading an image are such runs. -/
theorem iteration_yields_elements_at_start {id program : Bytes} {writable : Bool}
    {moves : List Move} {c : Client} (hplay : Play (.new id program writable) moves c)
    {v : Value} (hv : c.heap.Valid v) (hpaired : c.heap.Paired v) (name : Bytes)
    {yields : List Datum} {c' : Client}
    (hrun : Interleaved name ⟨c.session.perform (.iterate name v), c.handles, c.lent⟩ yields c') :
    let elements := (c.heap.view v).elements.map Datum.filled
    yields = elements.take yields.length
        ++ List.replicate (yields.length - elements.length) .nil ∧
      c'.session.Returns (Action.eval 1 (.hasNext name))
        (.boolean (yields.length < elements.length)) c'.session ∧
      (∃ w s, c'.session.Returns (Action.eval 1 (.next name)) w s ∧
        s.heap.view w = elements.getD yields.length .nil) ∧
      (∀ text, v = .string text → yields.length = text.length →
        yields.foldlM Operator.add.apply (.string []) = .ok (.string text)) ∧
      (∀ fuel e, e.Spares name → ∃ more c'', Interleaved name c' more c'' ∧
        c''.session = c'.session.after (Action.eval fuel e) ∧
          ∀ w, c'.session.result (Action.eval fuel e) = .ok w → c''.Has w) ∧
      ∀ image count m, Image.loadGlobals image c'.session.machine = .ok (count, m) →
        ∃ c'', Interleaved name c' [] c'' ∧ c''.session = ⟨m, c'.session.callers⟩ := by
  intro elements
  have hs := hplay.sound (Client.sound_new id program writable)
  have hunique := hplay.run.unique (Session.sound_new id program writable)
    (Session.unique_new id program writable)
  have hleft := hplay.run.leftOwned (Session.sound_new id program writable)
    (Session.unique_new id program writable) (Session.leftOwned_new id program writable)
  have hstart := Client.iterating_start hs hunique hleft hv hpaired name
  have helements : (Snapshot.of hs.session.heap hv hpaired).elements = elements :=
    Snapshot.elements_of hs.session.heap hv hpaired
  have hyields := hrun.yields_eq hstart
  obtain ⟨hend, -⟩ := hrun.iterating hstart
  simp only [Nat.zero_add, helements, map_getD_range] at hyields hend
  refine ⟨hyields, ?_, ?_, ?_, ?_, ?_⟩
  · have hmore := hend.returns_hasNext
    rw [helements] at hmore
    have hsame : min yields.length elements.length < elements.length
        ↔ yields.length < elements.length := by omega
    simp only [hsame] at hmore
    exact hmore
  · obtain ⟨w, s, hnext, hview, -⟩ := hend.exists_next
    have hpast := getD_min_length_add elements yields.length 0 .nil
    rw [Nat.add_zero, Nat.add_zero] at hpast
    rw [helements, hpast] at hview
    exact ⟨w, s, hnext, hview⟩
  · intro text htext hlength
    have hbytes : elements = text.map fun byte => .string [byte] := by
      show (c.heap.view v).elements.map Datum.filled = _
      rw [htext, Heap.view_string, Datum.elements, List.map_map]
      rfl
    have hall : yields = text.map fun byte => .string [byte] := by
      rw [hyields, hbytes, hlength, List.take_of_length_le (Nat.le_of_eq (List.length_map _)),
        List.length_map, Nat.sub_self, List.replicate_zero, List.append_nil]
    rw [hall]
    exact join_bytes [] text
  · exact fun fuel e he => woven_eval fuel he ⟨_, hend⟩
  · exact fun image count m hload => interleaved_load ⟨_, hend⟩ hload

namespace GrowingItem

/-- A client that has a list of two lists, each with a string in it. -/
def client : Client :=
  ((Client.new [] [] true).play (.operate (.build (.wrapped .item 1 (.string [97]))))).play
    (.operate (.build (.list [.list 0, .list 0])))

/-- The client when an iteration over the list has begun. -/
def start : Client :=
  ⟨client.session.perform (.iterate [] (.list 1)), client.handles, client.lent⟩

/-- A client that was handed a value by a step of the iteration. -/
def stepped (c : Client) (v : Value) : Client :=
  ⟨c.session.after (Action.eval 1 (.next [])), v :: c.handles, c.lent⟩

/-- The client lets the first item that it was handed grow, and the list itself. -/
def changed : Client :=
  ((stepped start (.list 5)).play (.operate (.append 5 (.string [122])))).play
    (.operate (.append 1 (.string [122])))

theorem play_client : ∃ moves, Play (.new [] [] true) moves client := by
  have hstring : (Move.operate (.build (.wrapped .item 1 (.string [97])))).Allowed
      (.new [] [] true) := by
    refine Operation.allowed_of_valid ?_ rfl
    simp [Operation.handles, Contents.handles]
  have hitems : (Move.operate (.build (.list [.list 0, .list 0]))).Allowed
      ((Client.new [] [] true).play (.operate (.build (.wrapped .item 1 (.string [97]))))) := by
    refine Operation.allowed_of_valid ?_ rfl
    intro v hv id hid
    simp only [Operation.handles, Contents.handles, List.mem_cons, List.not_mem_nil, or_false,
      or_self] at hv
    subst hv
    cases hid
    exact ⟨_, rfl, trivial⟩
  exact ⟨_, .step hstring (.single hitems)⟩

/-- Appending to a list that a client was handed. -/
theorem allowed_append {c : Client} {n : NodeId} (hlist : ∃ l, c.heap.nodes[n]? = some (.list l))
    (hmem : .list n ∈ c.handles) : (Move.operate (.append n (.string [122]))).Allowed c := by
  obtain ⟨l, hl⟩ := hlist
  constructor
  · intro v hv id hid
    simp only [Operation.handles, List.mem_cons, List.not_mem_nil, or_false] at hv
    rcases hv with rfl | rfl <;> cases hid
    exact ⟨_, hl, trivial⟩
  · intro v hv
    rw [List.mem_singleton.mp hv]
    exact .inr hmem

theorem play_changed : Play ((stepped start (.list 5)).hide [])
    [.operate (.append 5 (.string [122])), .operate (.append 1 (.string [122]))]
    (changed.hide []) :=
  .step (allowed_append ⟨_, rfl⟩ (by decide)) (.single (allowed_append ⟨_, rfl⟩ (by decide)))

/-- One step before the changes and two after them. -/
theorem interleaved_changed :
    ∃ first rest c', Interleaved [] start [first] (stepped start (.list 5)) ∧
      Interleaved [] changed rest c' ∧ rest.length = 2 := by
  have hfirst : start.session.result (Action.eval 1 (.next [])) = .ok (.list 5) := rfl
  have hsecond : changed.session.result (Action.eval 1 (.next [])) = .ok (.list 6) := rfl
  have hthird : (stepped changed (.list 6)).session.result (Action.eval 1 (.next []))
      = .ok .nil := rfl
  have hbefore := Interleaved.next ⟨hfirst, rfl⟩ (.done (stepped start (.list 5)))
  have hafter := Interleaved.next ⟨hsecond, rfl⟩ (.next ⟨hthird, rfl⟩ (.done _))
  exact ⟨_, _, _, hbefore, hafter, rfl⟩

end GrowingItem

open GrowingItem in
/-- A list of two lists is iterated over. The first step hands out a list, which then grows, and so
    does the list that the iteration began with. The second step yields what it would have yielded
    before, and a third one yields nil. -/
theorem items_yielded_as_they_were :
    ∃ (moves : List Move) (first : Datum) (rest : List Datum) (c' : Client),
      Play (.new [] [] true) moves client ∧ client.heap.Valid (.list 1) ∧
      client.heap.Paired (.list 1) ∧
      Interleaved [] start [first] (stepped start (.list 5)) ∧
      Play ((stepped start (.list 5)).hide []) [.operate (.append 5 (.string [122])),
        .operate (.append 1 (.string [122]))] (changed.hide []) ∧
      changed.heap.item 5 1 = .string [122] ∧ Interleaved [] changed rest c' ∧
      first :: rest = [.list 1 [.string [97]], .list 1 [.string [97]], .nil] := by
  obtain ⟨moves, hplay⟩ := play_client
  obtain ⟨first, rest, c', hbefore, hafter, hlength⟩ := interleaved_changed
  have hv : client.heap.Valid (.list 1) := by
    intro id hid
    cases hid
    exact ⟨_, rfl, trivial⟩
  have hpaired : client.heap.Paired (.list 1) := fun id o hobject _ => by cases hobject
  have hrun := hbefore.append (.work play_changed rfl hafter)
  obtain ⟨hyields, -⟩ := iteration_yields_elements_at_start hplay hv hpaired [] hrun
  have hcount : ([first] ++ rest).length = 3 := by
    rw [List.length_append, hlength]
    rfl
  rw [hcount] at hyields
  exact ⟨moves, first, rest, c', hplay, hv, hpaired, hbefore, play_changed, rfl, hafter, hyields⟩

end ValueRuntime
