import Dicebox.Proofs.Grammar
import Dicebox.Rolling

/-! # How a roll comes out

A roll comes to a value in one way for each list of faces that its dice may show. The faces, the
events on the way and the value belong together, and the relation between them follows the roll from
die to die. A run against a source is such a way: what the source hands out are the faces. So is a
run that fails, unless the source is to blame for it.

- `Rolling.Yields`: a roll, the faces of its dice in the order they are thrown, its events, its value.
- `Rolling.Yields.of_bind`: one roll after another.
- `Rolling.yields_of_run`: a run, together with what each draw does to the source.
- `Rolling.Ends`: the same for a roll that has a value or fails of itself.
- `Rolling.drawn`: what a source hands out in the course of a roll.
- `Rolling.Ensures`: what every value of a roll has, and so the value of every run.
-/

namespace Dicebox

/-- The source is to blame for the failure, and not the roll. -/
def RollError.OfSource : RollError → Prop
  | divisionByZero _ _ => False
  | outOfContract _ _ | source _ _ => True

/-- A run has a value, or it has failed and the source is not to blame. -/
def Run.OfItself {σ α : Type} (run : Run σ α) : Prop :=
  ∀ err, run.outcome = .error err → ¬ err.OfSource

theorem Run.ofItself_of_ok {σ α : Type} {run : Run σ α} {a : α} (h : run.outcome = .ok a) :
    run.OfItself := by
  intro err herr
  rw [h] at herr
  cases herr

namespace Rolling

variable {α β σ : Type}

/-- A roll comes to a value when its dice show these faces, and these events happen on the way. -/
inductive Yields {α : Type} : Rolling α → List Int → List Event → α → Prop
  | done (a : α) : Yields (.done a) [] [] a
  | draw {sides face : Int} {next : Int → Rolling α} {vs : List Int} {es : List Event} {a : α} :
      OnDie sides face → Yields (next face) vs es a → Yields (.draw sides next) (face :: vs) es a
  | note {event : Event} {rest : Rolling α} {vs : List Int} {es : List Event} {a : α} :
      Yields rest vs es a → Yields (.note event rest) vs (event :: es) a

theorem Yields.of_draw {sides : Int} {next : Int → Rolling α} {vs : List Int} {es : List Event}
    {a : α} (h : (Rolling.draw sides next).Yields vs es a) :
    ∃ face ws, vs = face :: ws ∧ OnDie sides face ∧ (next face).Yields ws es a := by
  cases h with
  | draw hface h => exact ⟨_, _, rfl, hface, h⟩

theorem Yields.of_bind {r : Rolling α} {f : α → Rolling β} {vs : List Int} {es : List Event} {b : β}
    (h : (r.bind f).Yields vs es b) :
    ∃ a vs₁ vs₂ es₁ es₂, vs = vs₁ ++ vs₂ ∧ es = es₁ ++ es₂ ∧
      r.Yields vs₁ es₁ a ∧ (f a).Yields vs₂ es₂ b := by
  induction r generalizing vs es with
  | done a => exact ⟨a, [], vs, [], es, rfl, rfl, .done a, h⟩
  | fail e => cases h
  | draw sides next ih =>
    obtain ⟨face, ws, rfl, hface, h⟩ := Yields.of_draw h
    obtain ⟨a, vs₁, vs₂, es₁, es₂, rfl, rfl, h₁, h₂⟩ := ih face h
    exact ⟨a, face :: vs₁, vs₂, es₁, es₂, rfl, rfl, .draw hface h₁, h₂⟩
  | note event rest ih =>
    cases h with
    | note h =>
      obtain ⟨a, vs₁, vs₂, es₁, es₂, rfl, rfl, h₁, h₂⟩ := ih h
      exact ⟨a, vs₁, vs₂, event :: es₁, es₂, rfl, rfl, .note h₁, h₂⟩

theorem Yields.bind {r : Rolling α} {f : α → Rolling β} {vs ws : List Int} {es es' : List Event}
    {a : α} {b : β} (h : r.Yields vs es a) (h' : (f a).Yields ws es' b) :
    (r.bind f).Yields (vs ++ ws) (es ++ es') b := by
  induction h with
  | done a => exact h'
  | draw hface _ ih => exact .draw hface (ih h')
  | note _ ih => exact .note (ih h')

/-! ## Runs -/

theorem faceOf?_eq_some {sides face : Int} {v : Data} (h : faceOf? sides v = some face) :
    v = .int face ∧ OnDie sides face := by
  rw [faceOf?.eq_def] at h
  split at h
  · split at h
    · next hon =>
      obtain rfl := Option.some.inj h
      exact ⟨rfl, hon⟩
    · cases h
  · cases h

variable [RandomSource σ]

theorem run_of_next {sides face : Int} {next : Int → Rolling α} {source source' : σ}
    (hnext : RandomSource.next source 1 sides = (.ok (.int face), source'))
    (hface : OnDie sides face) :
    (draw sides next).run source = (next face).run source' := by
  have hon : faceOf? sides (.int face) = some face := if_pos hface
  rw [run, hnext]
  simp only [hon]

/-- A die that is thrown without a failure of the source shows one of its faces, and the run goes on
with it. -/
theorem run_draw {sides : Int} {next : Int → Rolling α} {source : σ}
    (h : ((draw sides next).run source).OfItself) :
    ∃ face source', RandomSource.next source 1 sides = (.ok (.int face), source') ∧
      OnDie sides face ∧ (draw sides next).run source = (next face).run source' := by
  cases hnext : RandomSource.next source 1 sides with
  | mk answer source' =>
    cases answer with
    | error f =>
      have hfails : ((draw sides next).run source).outcome = .error (.source f sides) := by
        rw [run, hnext]
      exact absurd trivial (h _ hfails)
    | ok v =>
      cases hface : faceOf? sides v with
      | none =>
        have hfails : ((draw sides next).run source).outcome = .error (.outOfContract v sides) := by
          rw [run, hnext]
          simp only [hface]
        exact absurd trivial (h _ hfails)
      | some face =>
        obtain ⟨rfl, hon⟩ := faceOf?_eq_some hface
        exact ⟨face, source', rfl, hon, run_of_next hnext hon⟩

/-- **A run that has a value is one way for the roll to come out.** What every draw from the source
preserves while the faces are counted up is true of the faces and the source at its end. -/
theorem yields_of_run {I : List Int → σ → Prop}
    (hdraw : ∀ {past : List Int} {source source' : σ} {sides face : Int}, I past source →
      RandomSource.next source 1 sides = (.ok (.int face), source') → I (past ++ [face]) source')
    {r : Rolling α} {past : List Int} {source : σ} (hI : I past source) {a : α}
    (h : (r.run source).outcome = .ok a) :
    ∃ vs, r.Yields vs (r.run source).events a ∧ I (past ++ vs) (r.run source).source := by
  induction r generalizing past source with
  | done b =>
    obtain rfl := Except.ok.inj h
    exact ⟨[], .done b, by rwa [List.append_nil]⟩
  | fail e => cases h
  | draw sides next ih =>
    obtain ⟨face, source', hnext, hface, hrun⟩ := run_draw (Run.ofItself_of_ok h)
    rw [hrun] at h ⊢
    obtain ⟨vs, hy, hend⟩ := ih face (hdraw hI hnext) h
    rw [List.append_assoc] at hend
    exact ⟨face :: vs, .draw hface hy, hend⟩
  | note event rest ih =>
    obtain ⟨vs, hy, hend⟩ := ih hI h
    exact ⟨vs, .note hy, hend⟩

/-- What a source hands out in the course of a roll, in order. -/
def drawn (r : Rolling α) (source : σ) : List Data :=
  (r.run (Recording.mk source [])).source.handed.reverse

/-- A roll ends so of itself when its dice show these faces, and these events happen on the way. -/
inductive Ends {α : Type} : Rolling α → List Int → List Event → Except RollError α → Prop
  | done (a : α) : Ends (.done a) [] [] (.ok a)
  | fail (e : RollError) : Ends (.fail e) [] [] (.error e)
  | draw {sides face : Int} {next : Int → Rolling α} {vs : List Int} {es : List Event}
      {o : Except RollError α} :
      OnDie sides face → Ends (next face) vs es o → Ends (.draw sides next) (face :: vs) es o
  | note {event : Event} {rest : Rolling α} {vs : List Int} {es : List Event}
      {o : Except RollError α} : Ends rest vs es o → Ends (.note event rest) vs (event :: es) o

theorem Ends.yields {r : Rolling α} {vs : List Int} {es : List Event} {o : Except RollError α} {a : α}
    (h : r.Ends vs es o) (ho : o = .ok a) : r.Yields vs es a := by
  induction h with
  | done b =>
    obtain rfl := Except.ok.inj ho
    exact .done b
  | fail e => cases ho
  | draw hface _ ih => exact .draw hface (ih ho)
  | note _ ih => exact .note (ih ho)

theorem Yields.ends {r : Rolling α} {vs : List Int} {es : List Event} {a : α}
    (h : r.Yields vs es a) : r.Ends vs es (.ok a) := by
  induction h with
  | done a => exact .done a
  | draw hface _ ih => exact .draw hface ih
  | note _ ih => exact .note ih

/-- **A run that the source is not to blame for ends of itself**, and all that the source hands out
are the faces of its dice. -/
theorem ends_of_run {r : Rolling α} {source : σ} (handed : List Data)
    (h : (r.run source).OfItself) :
    ∃ vs, r.Ends vs (r.run source).events (r.run source).outcome ∧
      (r.run (Recording.mk source handed)).source.handed = (vs.map Data.int).reverse ++ handed := by
  induction r generalizing source handed with
  | done a => exact ⟨[], .done a, rfl⟩
  | fail e => exact ⟨[], .fail e, rfl⟩
  | draw sides next ih =>
    obtain ⟨face, source', hnext, hface, hrun⟩ := run_draw h
    have hrecord : RandomSource.next (Recording.mk source handed) 1 sides =
        (.ok (.int face), Recording.mk source' (.int face :: handed)) := by
      simp only [RandomSource.next] at hnext ⊢
      rw [hnext]
    rw [hrun] at h
    obtain ⟨vs, hends, hhanded⟩ := ih face (.int face :: handed) h
    rw [hrun, run_of_next hrecord hface]
    refine ⟨face :: vs, .draw hface hends, ?_⟩
    rw [hhanded, List.map_cons, List.reverse_cons, List.append_assoc, List.singleton_append]
  | note event rest ih =>
    obtain ⟨vs, hends, hhanded⟩ := ih handed h
    exact ⟨vs, .note hends, hhanded⟩

theorem ends_drawn {r : Rolling α} {source : σ} (h : (r.run source).OfItself) :
    ∃ vs, r.drawn source = vs.map Data.int ∧
      r.Ends vs (r.run source).events (r.run source).outcome := by
  obtain ⟨vs, hends, hhanded⟩ := ends_of_run [] h
  refine ⟨vs, ?_, hends⟩
  rw [drawn, hhanded, List.append_nil, List.reverse_reverse]

/-- What a source hands out in the course of a roll that has a value are the faces of its dice. -/
theorem yields_drawn {r : Rolling α} {source : σ} {a : α} (h : (r.run source).outcome = .ok a) :
    ∃ vs, r.drawn source = vs.map Data.int ∧ r.Yields vs (r.run source).events a := by
  obtain ⟨vs, hdrawn, hends⟩ := ends_drawn (Run.ofItself_of_ok h)
  exact ⟨vs, hdrawn, hends.yields h⟩

/-! ## What every outcome has -/

/-- Every value that a roll may come to has a property. A roll that fails ensures everything. -/
def Ensures (P : α → Prop) : Rolling α → Prop
  | done a => P a
  | fail _ => True
  | draw sides next => ∀ face, OnDie sides face → (next face).Ensures P
  | note _ rest => rest.Ensures P

namespace Ensures

variable {P : α → Prop} {r : Rolling α}

theorem of_yields (h : ∀ {vs es a}, r.Yields vs es a → P a) : r.Ensures P := by
  induction r with
  | done a => exact h (.done a)
  | fail e => trivial
  | draw sides next ih => exact fun face hface => ih face fun hy => h (.draw hface hy)
  | note event rest ih => exact ih fun hy => h (.note hy)

theorem of_value {vs : List Int} {es : List Event} {a : α} (h : r.Ensures P)
    (hy : r.Yields vs es a) : P a := by
  induction hy with
  | done a => exact h
  | draw hface _ ih => exact ih (h _ hface)
  | note _ ih => exact ih h

/-- **The value of a run has what the roll ensures**, whatever the source. -/
theorem of_run {a : α} (h : r.Ensures P) {source : σ} (ha : (r.run source).outcome = .ok a) :
    P a := by
  obtain ⟨vs, -, hy⟩ := yields_drawn ha
  exact h.of_value hy

end Ensures

end Rolling

end Dicebox
