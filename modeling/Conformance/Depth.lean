/-!
# Depth limits

A walk into a value steps into a child under its key and out of it again. A guard keeps the keys
that are open, innermost first, and refuses a step once as many keys are open as its limit allows.
Without a limit every step is free and nothing is kept.

Results:
* `Guard.enter`, `Guard.leave`: a step in and a step out.
* `Walk.child`: a walk of the child under a key, between the two steps.
* `Guard.length_le_of_enter`: no step leads past the limit.
* `Guard.leave_of_enter`: a step out undoes a step in.
-/

namespace Conformance

/-- A step past the limit: the keys that were open, outermost first, and the one refused. -/
structure DepthExceeded where
  limit : Nat
  opened : List String
  key : String

namespace DepthExceeded

/-- The dotted path of the refused step. -/
def path (e : DepthExceeded) : String :=
  let parents := ".".intercalate e.opened
  if parents.isEmpty then e.key else parents ++ "." ++ e.key

def message (e : DepthExceeded) : String :=
  "nesting exceeded the depth limit of " ++ toString e.limit ++ " at `" ++ e.path ++ "`"

end DepthExceeded

/-- The open keys, innermost first, how many they are, and how many there may be. -/
structure Guard where
  limit : Option Nat
  opened : List String
  depth : Nat
  depth_eq : depth = opened.length

namespace Guard

/-- A guard with nothing open. -/
def ofLimit (limit : Option Nat) : Guard := ⟨limit, [], 0, rfl⟩

/-- Steps into the child under a key. -/
def enter (g : Guard) (key : String) : Except DepthExceeded Guard :=
  match g.limit with
  | none => .ok g
  | some n =>
    if g.depth < n then .ok ⟨some n, key :: g.opened, g.depth + 1, by simp [g.depth_eq]⟩
    else .error ⟨n, g.opened.reverse, key⟩

/-- Steps out of the innermost open child; with none open it changes nothing. -/
def leave (g : Guard) : Guard :=
  match g.limit with
  | none => g
  | some n => ⟨some n, g.opened.tail, g.depth - 1, by simp [g.depth_eq]⟩

theorem length_le_of_enter {g g' : Guard} {n : Nat} {key : String} (hl : g.limit = some n)
    (h : g.enter key = .ok g') : g'.opened.length ≤ n := by
  rw [← g'.depth_eq]
  simp only [enter, hl] at h
  split at h
  · cases h
    assumption
  · cases h

theorem leave_of_enter {g g' : Guard} {key : String} (h : g.enter key = .ok g') :
    g'.leave = g := by
  obtain ⟨limit, opened, depth, hd⟩ := g
  cases limit with
  | none =>
    cases h
    rfl
  | some n =>
    simp only [enter] at h
    split at h
    · cases h
      rfl
    · cases h

end Guard

/-! ## Walks -/

/-- A walk under a guard: an answer with the guard handed back, or a step past the limit. -/
abbrev Walk (α : Type) := StateT Guard (Except DepthExceeded) α

/-- A walk of the child under a key. -/
def Walk.child {α : Type} (key : String) (walk : Walk α) : Walk α := fun g => do
  let inside ← g.enter key
  let (answer, inside) ← walk inside
  pure (answer, inside.leave)

/-- The answer of a walk that begins with nothing open. -/
def Walk.answer {α : Type} (walk : Walk α) (limit : Option Nat) : Except DepthExceeded α :=
  (walk (Guard.ofLimit limit)).map Prod.fst

end Conformance
