import Mathlib.Data.List.Induction

/-!
# Runs of a labelled step relation

A run lists the events of its steps in order. What every step keeps holds in
every run, and what only some events can break holds in the runs that avoid
those events.
-/

namespace Npnpm

universe u v

variable {S : Type u} {E : Type v}

/-- The states reached from `start` by finitely many steps, with their events. -/
inductive Run (step : S → E → S → Prop) (start : S) : List E → S → Prop
  | nil : Run step start [] start
  | snoc {events s e s'} (run : Run step start events s) (h : step s e s') :
      Run step start (events ++ [e]) s'

namespace Run

variable {step : S → E → S → Prop} {start s : S} {events : List E}

/-- What holds at the start and across every step holds in every reached state. -/
theorem invariant (inv : S → Prop) (run : Run step start events s) (hstart : inv start)
    (hstep : ∀ t e t', inv t → step t e t' → inv t') : inv s := by
  induction run with
  | nil => exact hstart
  | snoc _ h ih => exact hstep _ _ _ ih h

/-- A fact about the state and the events so far, carried along a run. -/
theorem invariant_with_events (inv : List E → S → Prop) (run : Run step start events s)
    (hstart : inv [] start)
    (hstep : ∀ es t e t', inv es t → step t e t' → inv (es ++ [e]) t') : inv events s := by
  induction run with
  | nil => exact hstart
  | snoc _ h ih => exact hstep _ _ _ _ ih h

/-- The invariant of the runs all of whose events are allowed. -/
theorem invariant_of_forall (inv : S → Prop) {ok : E → Prop}
    (run : Run step start events s) (hok : ∀ e ∈ events, ok e) (hstart : inv start)
    (hstep : ∀ t e t', inv t → ok e → step t e t' → inv t') : inv s := by
  induction run with
  | nil => exact hstart
  | @snoc es t e t' _ h ih =>
      have hes : ∀ e ∈ es, ok e := fun e he => hok e (by simp [he])
      exact hstep t e t' (ih hes) (hok e (by simp)) h

/-- Two runs, one after the other. -/
theorem append {mid : S} {before after : List E} (run : Run step start before mid)
    (run' : Run step mid after s) : Run step start (before ++ after) s := by
  induction run' with
  | nil => simpa using run
  | snoc _ h ih =>
      rw [← List.append_assoc]
      exact .snoc ih h

/-- A run seen through a projection of states and events: steps whose event is not seen leave
the state as it is seen. -/
theorem project {S' : Type u} {E' : Type v} {step' : S' → E' → S' → Prop} (view : S → S')
    (event : E → Option E')
    (hseen : ∀ t e t' e', step t e t' → event e = some e' → step' (view t) e' (view t'))
    (hunseen : ∀ t e t', step t e t' → event e = none → view t' = view t)
    (run : Run step start events s) :
    Run step' (view start) (events.filterMap event) (view s) := by
  induction run with
  | nil => exact .nil
  | @snoc events t e t' _ h ih =>
      rw [List.filterMap_append]
      cases he : event e with
      | none =>
          rw [hunseen t e t' h he]
          simpa [he] using ih
      | some e' =>
          have := ih.snoc (hseen t e t' e' h he)
          simpa [he] using this

theorem nil_inv (run : Run step start [] s) : start = s := by
  generalize hall : ([] : List E) = all at run
  cases run with
  | nil => rfl
  | snoc => simp at hall

theorem snoc_inv {e : E} (run : Run step start (events ++ [e]) s) :
    ∃ mid, Run step start events mid ∧ step mid e s := by
  generalize hall : events ++ [e] = all at run
  cases run with
  | nil => simp at hall
  | @snoc before t e' _ run h =>
      obtain ⟨rfl, he⟩ := List.append_inj' hall rfl
      obtain rfl : e = e' := by simpa using he
      exact ⟨t, run, h⟩

/-- A run through two lists of events passes a state between them. -/
theorem split {before after : List E} (run : Run step start (before ++ after) s) :
    ∃ mid, Run step start before mid ∧ Run step mid after s := by
  induction after using List.reverseRecOn generalizing s with
  | nil => exact ⟨s, by simpa using run, .nil⟩
  | append_singleton after e ih =>
      rw [← List.append_assoc] at run
      obtain ⟨t, hbefore, hstep⟩ := run.snoc_inv
      obtain ⟨mid, hmid, hafter⟩ := ih hbefore
      exact ⟨mid, hmid, .snoc hafter hstep⟩

end Run

/-- The same steps, each labelled with the states it joins as well. -/
def Traced (step : S → E → S → Prop) (s : S) (x : S × E × S) (s' : S) : Prop :=
  x.1 = s ∧ x.2.2 = s' ∧ step s x.2.1 s'

namespace Run

variable {step : S → E → S → Prop} {start s : S} {trace : List (S × E × S)}

theorem snoc_traced {e : E} {s' : S} (run : Run (Traced step) start trace s)
    (h : step s e s') : Run (Traced step) start (trace ++ [(s, e, s')]) s' :=
  .snoc run ⟨rfl, rfl, h⟩

/-- The run that a trace records. -/
theorem of_traced (run : Run (Traced step) start trace s) :
    Run step start (trace.map (·.2.1)) s := by
  induction run with
  | nil => exact .nil
  | snoc _ h ih =>
      simp only [List.map_append, List.map_cons, List.map_nil]
      exact .snoc ih h.2.2

/-- A run has a trace, and a further step is the last of it. -/
theorem exists_trace {events : List E} (run : Run step start events s) :
    ∃ trace, Run (Traced step) start trace s ∧ trace.map (·.2.1) = events := by
  induction run with
  | nil => exact ⟨[], .nil, rfl⟩
  | @snoc events t e t' _ h ih =>
      obtain ⟨trace, hrun, hmap⟩ := ih
      exact ⟨trace ++ [(t, e, t')], hrun.snoc_traced h, by simp [hmap]⟩

theorem exists_trace_last {events : List E} {e : E} {s' : S} (run : Run step start events s)
    (h : step s e s') :
    ∃ trace, Run (Traced step) start trace s' ∧ trace.map (·.2.1) = events ++ [e] ∧
      (s, e, s') ∈ trace := by
  obtain ⟨trace, hrun, hmap⟩ := run.exists_trace
  exact ⟨trace ++ [(s, e, s')], hrun.snoc_traced h, by simp [hmap], by simp⟩

/-- The step of a trace between two parts of it. -/
theorem split_trace {before after : List (S × E × S)} {x : S × E × S}
    (run : Run (Traced step) start (before ++ x :: after) s) :
    Run (Traced step) start before x.1 ∧ step x.1 x.2.1 x.2.2 ∧
      Run (Traced step) x.2.2 after s := by
  obtain ⟨mid, hbefore, hrest⟩ := run.split
  obtain ⟨next, hx, hafter⟩ := (show Run _ mid ([x] ++ after) s from hrest).split
  obtain ⟨t, ht, hstep⟩ := snoc_inv (show Run _ mid ([] ++ [x]) next from hx)
  obtain rfl := ht.nil_inv
  obtain ⟨rfl, rfl, hstep⟩ := hstep
  exact ⟨hbefore, hstep, hafter⟩

/-- Each step of a trace is taken in a state that a part of the trace reaches. -/
theorem exists_of_mem_trace (run : Run (Traced step) start trace s) {x : S × E × S}
    (hx : x ∈ trace) :
    ∃ before, Run (Traced step) start before x.1 ∧ before <+: trace ∧ step x.1 x.2.1 x.2.2 := by
  induction run with
  | nil => simp at hx
  | @snoc events t y t' run h ih =>
      obtain ⟨rfl, rfl, hstep⟩ := h
      rcases List.mem_append.mp hx with hmem | hmem
      · obtain ⟨before, hbefore, hpre, hx⟩ := ih hmem
        exact ⟨before, hbefore, hpre.trans (List.prefix_append _ _), hx⟩
      · obtain rfl : x = y := by simpa using hmem
        exact ⟨events, run, List.prefix_append _ _, hstep⟩

end Run

end Npnpm
