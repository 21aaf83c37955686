import Mathlib.Algebra.GroupWithZero.Nat
import Mathlib.Algebra.Order.BigOperators.Group.List
import Mathlib.Algebra.Order.Group.Nat
import Mathlib.Data.List.Basic

/-!
# Exploring a graph with a stack

Nodes are taken from a stack; one that was not seen before is expanded into its
children, which go on the stack, or makes the whole exploration fail. Nodes are
compared with `==`, and an expansion respects it.

## Implementation notes

Every round costs one unit of fuel. The nodes on the stack together with the
children still to come from unseen nodes of a finite list bound the number
of rounds, so enough fuel is known before the exploration starts.
-/

namespace Npnpm.Worklist

variable {N E : Type*} [BEq N]

def seen (visited : List N) (n : N) : Bool := visited.any fun v => v == n

/-- The nodes visited, in order. `none` means that the fuel ran out. -/
def explore (expand : N → Except E (List N)) :
    Nat → List N → List N → Option (Except E (List N))
  | 0, _, _ => none
  | _ + 1, [], visited => some (.ok visited)
  | fuel + 1, n :: stack, visited =>
      if seen visited n then explore expand fuel stack visited
      else
        match expand n with
        | .error e => some (.error e)
        | .ok children => explore expand fuel (children.reverse ++ stack) (visited ++ [n])

/-- Nodes reached from the roots through expansions that succeed. -/
inductive Reachable (expand : N → Except E (List N)) (roots : List N) : N → Prop
  | root {n} (h : n ∈ roots) : Reachable expand roots n
  | child {n c children} (parent : Reachable expand roots n)
      (hexpand : expand n = .ok children) (h : c ∈ children) : Reachable expand roots c

theorem seen_iff {visited : List N} {n : N} : seen visited n ↔ ∃ v ∈ visited, (v == n) = true := by
  simp [seen, List.any_eq_true]

section Sound

variable {expand : N → Except E (List N)} {roots : List N}

/-- Only reachable nodes are visited. -/
theorem reachable_of_mem_explore {fuel : Nat} {stack visited result : List N}
    (h : explore expand fuel stack visited = some (.ok result))
    (hstack : ∀ n ∈ stack, Reachable expand roots n)
    (hvisited : ∀ n ∈ visited, Reachable expand roots n) :
    ∀ n ∈ result, Reachable expand roots n := by
  induction fuel generalizing stack visited with
  | zero => simp [explore] at h
  | succ fuel ih =>
      cases stack with
      | nil =>
          simp only [explore, Option.some.injEq, Except.ok.injEq] at h
          exact h ▸ hvisited
      | cons n stack =>
          have htail : ∀ m ∈ stack, Reachable expand roots m := fun m hm => hstack m (by simp [hm])
          by_cases hseen : seen visited n
          · simp only [explore, if_pos hseen] at h
            exact ih h htail hvisited
          · simp only [explore, if_neg hseen] at h
            cases hexp : expand n with
            | error e => simp [hexp] at h
            | ok children =>
                simp only [hexp] at h
                have hn : Reachable expand roots n := hstack n (by simp)
                refine ih h ?_ ?_
                · intro m hm
                  rcases List.mem_append.mp hm with hm | hm
                  · exact .child hn hexp (List.mem_reverse.mp hm)
                  · exact htail m hm
                · intro m hm
                  rcases List.mem_append.mp hm with hm | hm
                  · exact hvisited m hm
                  · rw [List.mem_singleton.mp hm]
                    exact hn

/-- An exploration fails at a reachable node that cannot be expanded. -/
theorem exists_of_explore_error {fuel : Nat} {stack visited : List N} {e : E}
    (h : explore expand fuel stack visited = some (.error e))
    (hstack : ∀ n ∈ stack, Reachable expand roots n) :
    ∃ n, Reachable expand roots n ∧ expand n = .error e := by
  induction fuel generalizing stack visited with
  | zero => simp [explore] at h
  | succ fuel ih =>
      cases stack with
      | nil => simp [explore] at h
      | cons n stack =>
          have htail : ∀ m ∈ stack, Reachable expand roots m := fun m hm => hstack m (by simp [hm])
          have hn : Reachable expand roots n := hstack n (by simp)
          by_cases hseen : seen visited n
          · simp only [explore, if_pos hseen] at h
            exact ih h htail
          · simp only [explore, if_neg hseen] at h
            cases hexp : expand n with
            | error e' =>
                simp only [hexp, Option.some.injEq, Except.error.injEq] at h
                exact ⟨n, hn, by rw [hexp, h]⟩
            | ok children =>
                simp only [hexp] at h
                refine ih h fun m hm => ?_
                rcases List.mem_append.mp hm with hm | hm
                · exact .child hn hexp (List.mem_reverse.mp hm)
                · exact htail m hm

/-- No node is visited twice. -/
theorem pairwise_of_explore {fuel : Nat} {stack visited result : List N}
    (h : explore expand fuel stack visited = some (.ok result))
    (hvisited : visited.Pairwise fun a b => (a == b) = false) :
    result.Pairwise fun a b => (a == b) = false := by
  induction fuel generalizing stack visited with
  | zero => simp [explore] at h
  | succ fuel ih =>
      cases stack with
      | nil =>
          simp only [explore, Option.some.injEq, Except.ok.injEq] at h
          exact h ▸ hvisited
      | cons n stack =>
          by_cases hseen : seen visited n
          · simp only [explore, if_pos hseen] at h
            exact ih h hvisited
          · simp only [explore, if_neg hseen] at h
            cases hexp : expand n with
            | error e => simp [hexp] at h
            | ok children =>
                simp only [hexp] at h
                refine ih h (List.pairwise_append.mpr ⟨hvisited, by simp, fun v hv m hm => ?_⟩)
                obtain rfl := List.mem_singleton.mp hm
                by_contra hne
                exact hseen (seen_iff.mpr ⟨v, hv, by simpa using hne⟩)

end Sound

section Complete

variable {expand : N → Except E (List N)} {roots : List N}

/-- Every child of a visited node is visited or waiting on the stack. -/
def Closed (expand : N → Except E (List N)) (stack visited : List N) : Prop :=
  ∀ v ∈ visited, ∀ children, expand v = .ok children → ∀ c ∈ children,
    seen visited c ∨ c ∈ stack

theorem seen_append {visited : List N} {n : N} (extra : List N) (h : seen visited n) :
    seen (visited ++ extra) n := by
  rw [seen_iff] at h ⊢
  obtain ⟨v, hv, he⟩ := h
  exact ⟨v, by simp [hv], he⟩

/-- A finished exploration is closed and has seen its whole stack. -/
theorem closed_of_explore [ReflBEq N] {fuel : Nat} {stack visited result : List N}
    (h : explore expand fuel stack visited = some (.ok result))
    (hclosed : Closed expand stack visited) :
    Closed expand [] result ∧ (∀ n, seen visited n ∨ n ∈ stack → seen result n) ∧
      ∀ n ∈ result, n ∈ visited ∨ ∃ children, expand n = .ok children := by
  induction fuel generalizing stack visited with
  | zero => simp [explore] at h
  | succ fuel ih =>
      cases stack with
      | nil =>
          simp only [explore, Option.some.injEq, Except.ok.injEq] at h
          subst h
          exact ⟨hclosed, fun n hn => by simpa using hn, fun n hn => Or.inl hn⟩
      | cons n stack =>
          by_cases hseen : seen visited n
          · simp only [explore, if_pos hseen] at h
            have hclosed' : Closed expand stack visited := by
              intro v hv children hexp c hc
              rcases hclosed v hv children hexp c hc with hs | hs
              · exact Or.inl hs
              · rcases List.mem_cons.mp hs with rfl | hs
                · exact Or.inl hseen
                · exact Or.inr hs
            obtain ⟨hres, hall, hfrom⟩ := ih h hclosed'
            refine ⟨hres, fun m hm => hall m ?_, hfrom⟩
            rcases hm with hm | hm
            · exact Or.inl hm
            · rcases List.mem_cons.mp hm with rfl | hm
              · exact Or.inl hseen
              · exact Or.inr hm
          · simp only [explore, if_neg hseen] at h
            cases hexp : expand n with
            | error e => simp [hexp] at h
            | ok children =>
                simp only [hexp] at h
                have hself : seen (visited ++ [n]) n := seen_iff.mpr ⟨n, by simp, BEq.rfl⟩
                have hclosed' : Closed expand (children.reverse ++ stack) (visited ++ [n]) := by
                  intro v hv cs hcs c hc
                  rcases List.mem_append.mp hv with hv | hv
                  · rcases hclosed v hv cs hcs c hc with hs | hs
                    · exact Or.inl (seen_append [n] hs)
                    · rcases List.mem_cons.mp hs with rfl | hs
                      · exact Or.inl hself
                      · exact Or.inr (by simp [hs])
                  · rw [List.mem_singleton.mp hv, hexp, Except.ok.injEq] at hcs
                    subst hcs
                    exact Or.inr (by simp [hc])
                obtain ⟨hres, hall, hfrom⟩ := ih h hclosed'
                refine ⟨hres, fun m hm => hall m ?_, fun m hm => ?_⟩
                · rcases hm with hm | hm
                  · exact Or.inl (seen_append [n] hm)
                  · rcases List.mem_cons.mp hm with rfl | hm
                    · exact Or.inl hself
                    · exact Or.inr (by simp [hm])
                · rcases hfrom m hm with hm | hm
                  · rcases List.mem_append.mp hm with hm | hm
                    · exact Or.inl hm
                    · rw [List.mem_singleton.mp hm]
                      exact Or.inr ⟨children, hexp⟩
                  · exact Or.inr hm

/-- Up to `==`, a finished exploration has visited every reachable node. -/
theorem seen_of_reachable [EquivBEq N] {fuel : Nat} {result : List N}
    (hcongr : ∀ a b, (a == b) = true → ∀ children, expand a = .ok children →
      expand b = .ok children)
    (h : explore expand fuel roots.reverse [] = some (.ok result)) {n : N}
    (hn : Reachable expand roots n) : seen result n := by
  have hnil : Closed expand roots.reverse [] := fun v hv => by simp at hv
  obtain ⟨hclosed, hall, hfrom⟩ := closed_of_explore h hnil
  induction hn with
  | root hr => exact hall _ (Or.inr (by simpa using hr))
  | child _ hexpand hc ih =>
      obtain ⟨v, hv, heq⟩ := seen_iff.mp ih
      have hv' := hcongr _ _ (BEq.symm heq) _ hexpand
      rcases hclosed v hv _ hv' _ hc with hs | hs
      · exact hs
      · simp at hs

end Complete

section Fuel

variable {expand : N → Except E (List N)}

/-- The children still to come from the unseen nodes of a list. -/
def pending (degree : N → Nat) (nodes visited : List N) : Nat :=
  (nodes.map fun u => if seen visited u then 0 else degree u).sum

theorem pending_append_le (degree : N → Nat) (nodes visited extra : List N) :
    pending degree nodes (visited ++ extra) ≤ pending degree nodes visited := by
  refine List.sum_le_sum fun u _ => ?_
  by_cases hu : seen visited u
  · rw [if_pos (seen_append extra hu), if_pos hu]
  · rw [if_neg hu]
    split <;> omega

/-- Visiting one of the nodes takes its own children off the account. -/
theorem pending_append [EquivBEq N] (degree : N → Nat) {nodes visited : List N} {n u : N}
    (hu : u ∈ nodes) (hun : (u == n) = true) (hn : ¬ seen visited n) :
    pending degree nodes (visited ++ [n]) + degree u ≤ pending degree nodes visited := by
  have hnew : seen (visited ++ [n]) u := seen_iff.mpr ⟨n, by simp, BEq.symm hun⟩
  have hold : ¬ seen visited u := by
    intro hs
    obtain ⟨v, hv, hvu⟩ := seen_iff.mp hs
    exact hn (seen_iff.mpr ⟨v, hv, BEq.trans hvu hun⟩)
  obtain ⟨before, after, rfl⟩ := List.append_of_mem hu
  have hbefore := pending_append_le degree before visited [n]
  have hafter := pending_append_le degree after visited [n]
  simp only [pending, List.map_append, List.map_cons, List.sum_append, List.sum_cons,
    if_pos hnew, if_neg hold] at hbefore hafter ⊢
  omega

/-- With more fuel than nodes waiting and to come, the exploration finishes. -/
theorem explore_isSome [EquivBEq N] (degree : N → Nat) (nodes : List N)
    (hexpand : ∀ n children, expand n = .ok children →
      ∃ u ∈ nodes, (u == n) = true ∧ children.length ≤ degree u)
    (fuel : Nat) (stack visited : List N)
    (hfuel : stack.length + pending degree nodes visited < fuel) :
    (explore expand fuel stack visited).isSome := by
  induction fuel generalizing stack visited with
  | zero => omega
  | succ fuel ih =>
      cases stack with
      | nil => rfl
      | cons n stack =>
          simp only [List.length_cons] at hfuel
          by_cases hseen : seen visited n
          · simp only [explore, if_pos hseen]
            exact ih stack visited (by omega)
          · simp only [explore, if_neg hseen]
            cases hexp : expand n with
            | error e => rfl
            | ok children =>
                obtain ⟨u, hu, hun, hlen⟩ := hexpand n children hexp
                have hdrop := pending_append degree hu hun hseen
                apply ih _ _
                simp only [List.length_append, List.length_reverse]
                omega

end Fuel

end Npnpm.Worklist
