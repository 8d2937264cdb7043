import KeysetPaging.Journal

/-! # What a run ensures

A run answers after it has noted events and changed the state of its sources. Most of what is said
about an answer does not depend on the journal the run starts from. `Run.Ensures` says it for every
journal at once, and the rules below carry it through the steps of a run. `Run.Upholds` says it for
the journals in which the sources are in a state of a kind, and that the run leaves them in such a
state. `Run.Does` says just what a run answers and how it changes the state, where that is the same
for every journal, and `Run.Steady` no more than that the answer is. Two runs are compared from any
journals by `Run.Agree`, and from the same journal by `Run.InStep`. A run from one journal to
another is taken apart by `Run.exists_of_bind_eq`.
-/

namespace KeysetPaging.Run

variable {σ α β : Type}

/-- Whatever the journal, the answer of the run has the property. -/
def Ensures (run : Run σ α) (P : α → Prop) : Prop :=
  ∀ j, P (run j).1

/-- A run in two steps goes on with the answer of the first step, in the journal that it leaves. -/
theorem bind_of_eq {run : Run σ α} {next : α → Run σ β} {j after : Journal σ} {a : α}
    (h : run j = (a, after)) : (run >>= next) j = next a after := by
  change next (run j).1 (run j).2 = _
  rw [h]

/-- A run in two steps stops between them, with an answer and in a journal from which the second
step goes on. -/
theorem exists_of_bind_eq {run : Run σ α} {next : α → Run σ β} {before after : Journal σ} {b : β}
    (h : (run >>= next) before = (b, after)) :
    ∃ a between, run before = (a, between) ∧ next a between = (b, after) :=
  ⟨(run before).1, (run before).2, rfl, h⟩

/-- A run that begins by noting an event goes on in the journal with the event. -/
theorem of_note_bind_eq {e : Event} {next : Unit → Run σ β} {before : Journal σ}
    {result : β × Journal σ} (h : (note e >>= next) before = result) :
    next () { before with events := e :: before.events } = result :=
  h

/-- A run that does nothing answers what it is given. -/
theorem Ensures.pure {P : α → Prop} {a : α} (h : P a) : Ensures (σ := σ) (pure a) P :=
  fun _ => h

/-- A run in two steps ensures what the second step ensures of every answer of the first. -/
theorem Ensures.bind {run : Run σ α} {next : α → Run σ β} {P : α → Prop} {Q : β → Prop}
    (hrun : Ensures run P) (hnext : ∀ a, P a → Ensures (next a) Q) :
    Ensures (run >>= next) Q :=
  fun j => hnext (run j).1 (hrun j) (run j).2

/-- A run in two steps ensures what the second step ensures whatever the first one answers. -/
theorem Ensures.bind_any {run : Run σ α} {next : α → Run σ β} {Q : β → Prop}
    (hnext : ∀ a, Ensures (next a) Q) : Ensures (run >>= next) Q :=
  fun j => hnext (run j).1 (run j).2

/-- Noting an event changes no answer. -/
theorem Ensures.note {e : Event} {next : Unit → Run σ β} {Q : β → Prop}
    (hnext : Ensures (next ()) Q) : Ensures (note e >>= next) Q :=
  fun _ => hnext _

/-- A weaker property is ensured too. -/
theorem Ensures.mono {run : Run σ α} {P Q : α → Prop} (hrun : Ensures run P)
    (h : ∀ a, P a → Q a) : Ensures run Q :=
  fun j => h _ (hrun j)

/-- Two properties that are ensured are ensured together. -/
theorem Ensures.and {run : Run σ α} {P Q : α → Prop} (hP : Ensures run P) (hQ : Ensures run Q) :
    Ensures run fun a => P a ∧ Q a :=
  fun j => ⟨hP j, hQ j⟩

/-- In a journal whose state has the property `I`, the answer of the run has the property `P`, and
the state after the run has the property `I` again. -/
def Upholds (I : σ → Prop) (run : Run σ α) (P : α → Prop) : Prop :=
  ∀ j, I j.state → P (run j).1 ∧ I (run j).2.state

variable {I : σ → Prop}

theorem Upholds.pure {P : α → Prop} {a : α} (h : P a) : Upholds I (pure a) P :=
  fun _ hstate => ⟨h, hstate⟩

/-- A run in two steps upholds what its steps do, as long as the second one expects no more of the
answer than the first one gives. -/
theorem Upholds.bind {run : Run σ α} {next : α → Run σ β} {P : α → Prop} {Q : β → Prop}
    (hrun : Upholds I run P) (hnext : ∀ a, P a → Upholds I (next a) Q) :
    Upholds I (run >>= next) Q := by
  intro j hstate
  obtain ⟨hanswer, hafter⟩ := hrun j hstate
  exact hnext (run j).1 hanswer (run j).2 hafter

/-- Events are no part of the state of the sources. -/
theorem Upholds.note {e : Event} {next : Unit → Run σ β} {Q : β → Prop}
    (hnext : Upholds I (next ()) Q) : Upholds I (note e >>= next) Q :=
  fun _ hstate => hnext _ hstate

/-- What is ensured of every answer holds beside what is upheld. -/
theorem Upholds.and {run : Run σ α} {P Q : α → Prop} (hP : Upholds I run P)
    (hQ : Ensures run Q) : Upholds I run fun a => P a ∧ Q a :=
  fun j hstate => ⟨⟨(hP j hstate).1, hQ j⟩, (hP j hstate).2⟩

theorem Upholds.mono {run : Run σ α} {P Q : α → Prop} (hrun : Upholds I run P)
    (h : ∀ a, P a → Q a) : Upholds I run Q :=
  fun j hstate => ⟨h _ (hrun j hstate).1, (hrun j hstate).2⟩

/-- Whatever the journal, the run gives one answer, and changes the state of the sources in one
way. -/
def Does (run : Run σ α) (answer : α) (change : σ → σ) : Prop :=
  ∀ j, (run j).1 = answer ∧ (run j).2.state = change j.state

theorem Does.pure (a : α) : Does (σ := σ) (pure a) a id :=
  fun _ => ⟨rfl, rfl⟩

/-- A run in two steps goes on with the answer of the first step, and changes what that has
changed. -/
theorem Does.bind {run : Run σ α} {next : α → Run σ β} {a : α} {b : β} {f g : σ → σ}
    (hrun : Does run a f) (hnext : Does (next a) b g) : Does (run >>= next) b (g ∘ f) := by
  intro j
  obtain ⟨hanswer, hstate⟩ := hrun j
  obtain ⟨hanswer', hstate'⟩ := hnext (run j).2
  change (next (run j).1 (run j).2).1 = b ∧ (next (run j).1 (run j).2).2.state = g (f j.state)
  rw [hanswer]
  exact ⟨hanswer', by rw [hstate', hstate]⟩

/-- A second step that only answers changes nothing more. -/
theorem Does.answer {run : Run σ α} {next : α → Run σ β} {a : α} {b : β} {f : σ → σ}
    (hrun : Does run a f) (hnext : next a = Pure.pure b) : Does (run >>= next) b f := by
  have hpure : Does (next a) b id := hnext ▸ Does.pure b
  exact hrun.bind hpure

/-- Noting an event is no change. -/
theorem Does.note {e : Event} {next : Unit → Run σ β} {b : β} {g : σ → σ}
    (hnext : Does (next ()) b g) : Does (note e >>= next) b g :=
  fun _ => hnext _

/-! ## Runs that always answer alike -/

/-- Whatever the journal, the run gives the same answer. -/
def Steady (run : Run σ α) : Prop :=
  ∃ a, Ensures run fun answer => answer = a

theorem Steady.pure (a : α) : Steady (σ := σ) (pure a) :=
  ⟨a, .pure rfl⟩

theorem Steady.bind {run : Run σ α} {next : α → Run σ β} (hrun : Steady run)
    (hnext : ∀ a, Steady (next a)) : Steady (run >>= next) := by
  obtain ⟨a, ha⟩ := hrun
  obtain ⟨b, hb⟩ := hnext a
  refine ⟨b, ha.bind ?_⟩
  rintro _ rfl
  exact hb

/-- A steady run gives just one answer of which something is ensured. -/
theorem Steady.exists_answer {run : Run σ α} {P : α → Prop} [Nonempty (Journal σ)]
    (hrun : Steady run) (hP : Ensures run P) : ∃ a, P a ∧ Ensures run fun answer => answer = a := by
  obtain ⟨a, ha⟩ := hrun
  obtain ⟨j⟩ := ‹Nonempty (Journal σ)›
  exact ⟨a, ha j ▸ hP j, ha⟩

/-! ## Runs that agree -/

variable {γ δ : Type} {R : α → β → Prop} {S : γ → δ → Prop}

/-- Whatever journals the two runs start from, their answers are related. -/
def Agree (R : α → β → Prop) (run : Run σ α) (other : Run σ β) : Prop :=
  ∀ j k, R (run j).1 (other k).1

theorem Agree.pure {a : α} {b : β} (h : R a b) :
    Agree (σ := σ) R (Pure.pure a) (Pure.pure b) :=
  fun _ _ => h

/-- Runs in two steps agree when their first steps do, and their second steps do after related
answers. -/
theorem Agree.bind {run : Run σ α} {other : Run σ β} {next : α → Run σ γ} {next' : β → Run σ δ}
    (hrun : Agree R run other) (hnext : ∀ a b, R a b → Agree S (next a) (next' b)) :
    Agree S (run >>= next) (other >>= next') :=
  fun j k => hnext (run j).1 (other k).1 (hrun j k) (run j).2 (other k).2

/-- Noting an event changes no answer. -/
theorem Agree.note {e : Event} {next : Unit → Run σ α} {other : Run σ β}
    (hnext : Agree R (next ()) other) : Agree R (Run.note e >>= next) other :=
  fun _ k => hnext _ k

theorem Agree.mono {run : Run σ α} {other : Run σ β} {R' : α → β → Prop} (h : Agree R run other)
    (hR : ∀ a b, R a b → R' a b) : Agree R' run other :=
  fun j k => hR _ _ (h j k)

/-- What is ensured of the first answer holds beside what relates the two. -/
theorem Agree.and_left {run : Run σ α} {other : Run σ β} {P : α → Prop} (h : Agree R run other)
    (hrun : Ensures run P) : Agree (fun a b => R a b ∧ P a) run other :=
  fun j k => ⟨h j k, hrun j⟩

/-- What is ensured of the second answer holds beside what relates the two. -/
theorem Agree.and_right {run : Run σ α} {other : Run σ β} {Q : β → Prop} (h : Agree R run other)
    (hother : Ensures other Q) : Agree (fun a b => R a b ∧ Q b) run other :=
  fun j k => ⟨h j k, hother k⟩

/-- A steady run agrees with itself. -/
theorem Steady.agree {run : Run σ α} (h : Steady run) : Agree Eq run run := by
  obtain ⟨a, ha⟩ := h
  exact fun j k => (ha j).trans (ha k).symm

/-! ## Two runs in step -/

/-- From the same journal the two runs give related answers and leave the same journal. -/
def InStep (R : α → β → Prop) (run : Run σ α) (other : Run σ β) : Prop :=
  ∀ j, R (run j).1 (other j).1 ∧ (run j).2 = (other j).2

theorem InStep.pure {a : α} {b : β} (h : R a b) :
    InStep (σ := σ) R (Pure.pure a) (Pure.pure b) :=
  fun _ => ⟨h, rfl⟩

theorem InStep.refl (run : Run σ α) : InStep Eq run run :=
  fun _ => ⟨rfl, rfl⟩

/-- Runs in two steps are in step when their first steps are, and their second steps are after
related answers. -/
theorem InStep.bind {run : Run σ α} {other : Run σ β} {next : α → Run σ γ} {next' : β → Run σ δ}
    (hrun : InStep R run other) (hnext : ∀ a b, R a b → InStep S (next a) (next' b)) :
    InStep S (run >>= next) (other >>= next') := by
  intro j
  obtain ⟨hanswer, hjournal⟩ := hrun j
  have hstep := hnext _ _ hanswer (run j).2
  change S (next (run j).1 (run j).2).1 (next' (other j).1 (other j).2).1 ∧
    (next (run j).1 (run j).2).2 = (next' (other j).1 (other j).2).2
  rw [← hjournal]
  exact hstep

/-- Noting the same event keeps runs in step. -/
theorem InStep.note {e : Event} {next : Unit → Run σ γ} {next' : Unit → Run σ δ}
    (hnext : InStep S (next ()) (next' ())) :
    InStep S (Run.note e >>= next) (Run.note e >>= next') :=
  fun _ => hnext _

/-- Runs in step with equal answers are equal. -/
theorem InStep.eq {run other : Run σ α} (h : InStep Eq run other) : run = other :=
  funext fun j => Prod.ext (h j).1 (h j).2

end KeysetPaging.Run
