import DependencyRanking.Error
import DependencyRanking.Tally

/-!
# Strongly connected components by one depth-first search

The search keeps its own stack of frames, so deep chains cost no recursion. Every node gets a
discovery index and a low link, the least index it is known to reach on the component stack; a
node that keeps its own index closes a component, which is popped off that stack.

`Search.step` is one step, `Search.run` repeats it. `Search.potential` counts what is left to do
and every step lowers it, so the search ends.
-/
namespace DependencyRanking

/-- A search in progress. The head of `frames` and of `stack` is the top. -/
structure Search (α : Type) where
  roots : List α
  frames : List (α × List α) := []
  stack : List α := []
  onStack : List α := []
  index : Table α Nat := ∅
  lowlink : Table α Nat := ∅
  counter : Nat := 0
  components : List (List α) := []

namespace Search

variable {α : Type} [DecidableEq α]

def discover (succ : α → List α) (v : α) (s : Search α) : Search α :=
  { s with
    frames := (v, succ v) :: s.frames
    stack := v :: s.stack
    onStack := v :: s.onStack
    index := s.index.insert v s.counter
    lowlink := s.lowlink.insert v s.counter
    counter := s.counter + 1 }

def lower (v : α) (bound : Nat) (s : Search α) : Except RankingError (Search α) :=
  match s.lowlink.get? v with
  | some low => .ok { s with lowlink := s.lowlink.insert v (min low bound) }
  | none => .error .missingEntry

def popThrough (v : α) : List α → Option (List α × List α)
  | [] => none
  | w :: rest =>
    if w = v then some ([w], rest) else (popThrough v rest).map fun p => (w :: p.1, p.2)

/-- Pops the component of a node off the stack. -/
def close (v : α) (s : Search α) : Except RankingError (Search α) :=
  match popThrough v s.stack with
  | some (component, rest) =>
    .ok { s with
      stack := rest
      onStack := s.onStack.filter (· ∉ component)
      components := s.components ++ [component] }
  | none => .error .positionOutOfRange

/-- Leaves a node whose successors are all seen: passes its low link on to the caller and closes
its component if it kept its own index. -/
def leave (v : α) (s : Search α) : Except RankingError (Search α) :=
  match s.lowlink.get? v, s.index.get? v with
  | some low, some index => do
    let s ← match s.frames with
      | (caller, _) :: _ => s.lower caller low
      | [] => .ok s
    if low = index then s.close v else .ok s
  | _, _ => .error .missingEntry

/-- Looks at one successor of the node on top. Successors outside the listed nodes do not count. -/
def visit (nodes : List α) (succ : α → List α) (v w : α) (s : Search α) :
    Except RankingError (Search α) :=
  if w ∈ nodes then
    match s.index.get? w with
    | none => .ok (s.discover succ w)
    | some index => if w ∈ s.onStack then s.lower v index else .ok s
  else .ok s

def step (nodes : List α) (succ : α → List α) (s : Search α) :
    Except RankingError (Option (Search α)) :=
  match s.frames with
  | (v, w :: rest) :: below => some <$> visit nodes succ v w { s with frames := (v, rest) :: below }
  | (v, []) :: below => some <$> leave v { s with frames := below }
  | [] =>
    match s.roots with
    | [] => .ok none
    | root :: rest =>
      let s := { s with roots := rest }
      .ok (some (if s.index.contains root then s else s.discover succ root))

def pending (nodes : List α) (succ : α → List α) (index : Table α Nat) : Nat :=
  tally (fun v => (succ v).length + 2) (nodes.filter fun v => !index.contains v)

/-- What is left to do: the roots, the undiscovered nodes and the open frames. -/
def potential (nodes : List α) (succ : α → List α) (s : Search α) : Nat :=
  tally (fun v => (succ v).length + 2) s.roots + pending nodes succ s.index
    + tally (fun f => f.2.length + 1) s.frames

theorem pending_insert_le (nodes : List α) (succ : α → List α) (index : Table α Nat) (v : α)
    (n : Nat) : pending nodes succ (index.insert v n) ≤ pending nodes succ index := by
  unfold pending
  induction nodes with
  | nil => simp
  | cons w rest ih =>
    by_cases h : w = v
    · by_cases hc : index.contains w <;> simp_all [Table.contains_insert]
      omega
    · by_cases hc : index.contains w <;> simp_all [Table.contains_insert]

theorem pending_insert_lt (nodes : List α) (succ : α → List α) (index : Table α Nat) {v : α}
    (n : Nat) (hv : v ∈ nodes) (hi : index.get? v = none) :
    pending nodes succ (index.insert v n) + ((succ v).length + 2) ≤ pending nodes succ index := by
  have hc : index.contains v = false := by simp [Table.contains, hi]
  induction nodes with
  | nil => simp at hv
  | cons w rest ih =>
    by_cases h : w = v
    · subst h
      have := pending_insert_le rest succ index w n
      simp_all [pending, Table.contains_insert]
      omega
    · have := ih ((List.mem_cons.1 hv).resolve_left (Ne.symm h))
      by_cases hw : index.contains w <;> simp_all [pending, Table.contains_insert]
      omega

theorem lower_eq_ok {v : α} {bound : Nat} {s t : Search α} (h : s.lower v bound = .ok t) :
    t.roots = s.roots ∧ t.frames = s.frames ∧ t.index = s.index := by
  unfold lower at h
  split at h
  · cases h
    exact ⟨rfl, rfl, rfl⟩
  · cases h

theorem close_eq_ok {v : α} {s t : Search α} (h : s.close v = .ok t) :
    t.roots = s.roots ∧ t.frames = s.frames ∧ t.index = s.index := by
  unfold close at h
  split at h
  · cases h
    exact ⟨rfl, rfl, rfl⟩
  · cases h

theorem leave_eq_ok {v : α} {s t : Search α} (h : s.leave v = .ok t) :
    t.roots = s.roots ∧ t.frames = s.frames ∧ t.index = s.index := by
  unfold leave at h
  split at h
  · rename_i low index _ _
    rcases hc : s.frames with _ | ⟨⟨caller, ws⟩, below⟩
    · simp only [hc, bind, Except.bind] at h
      split at h
      · exact hc ▸ close_eq_ok h
      · cases h
        exact ⟨rfl, hc, rfl⟩
    · simp only [hc, bind, Except.bind] at h
      split at h
      · cases h
      · rename_i u hu
        have hl := lower_eq_ok hu
        split at h
        · have hk := close_eq_ok h
          exact ⟨hk.1.trans hl.1, hk.2.1.trans (hl.2.1.trans hc), hk.2.2.trans hl.2.2⟩
        · cases h
          exact ⟨hl.1, hl.2.1.trans hc, hl.2.2⟩
  · cases h

theorem potential_step {nodes : List α} {succ : α → List α} {s t : Search α}
    (h : s.step nodes succ = .ok (some t)) : t.potential nodes succ < s.potential nodes succ := by
  unfold step at h
  split at h
  · rename_i v w rest below hf
    unfold visit at h
    split at h
    · rename_i hw
      split at h
      · rename_i hi
        cases h
        have := pending_insert_lt nodes succ s.index s.counter hw hi
        simp only [potential, discover, hf, tally_cons, List.length_cons]
        omega
      · split at h
        · simp only [Functor.map, Except.map] at h
          split at h
          · cases h
          · rename_i u hu
            cases h
            obtain ⟨h₁, h₂, h₃⟩ := lower_eq_ok hu
            simp [potential, h₁, h₂, h₃, hf]
        · cases h
          simp [potential, hf]
    · cases h
      simp [potential, hf]
  · rename_i v below hf
    simp only [Functor.map, Except.map] at h
    split at h
    · cases h
    · rename_i u hu
      cases h
      obtain ⟨h₁, h₂, h₃⟩ := leave_eq_ok hu
      simp [potential, h₁, h₂, h₃, hf]
  · rename_i hf
    split at h
    · cases h
    · rename_i root rest hr
      cases h
      have := pending_insert_le nodes succ s.index root s.counter
      split <;> simp only [potential, discover, hf, hr, tally_cons] <;> omega

def run (nodes : List α) (succ : α → List α) (s : Search α) : Except RankingError (Search α) :=
  match _h : s.step nodes succ with
  | .error e => .error e
  | .ok none => .ok s
  | .ok (some t) => run nodes succ t
termination_by s.potential nodes succ
decreasing_by exact potential_step _h

def start (nodes : List α) : Search α := { roots := nodes }

end Search

/-- The strongly connected components of the graph on the listed nodes, each after every component
that it can reach. -/
def strongComponents {α : Type} [DecidableEq α] (nodes : List α) (succ : α → List α) :
    Except RankingError (List (List α)) := do
  let s ← Search.run nodes succ (Search.start nodes)
  pure s.components

end DependencyRanking
