import Conformance.Proofs.Finding
import Mathlib.Data.List.Infix

/-!
# The guard is a bounded stack

Calls on a guard enter a key or leave the innermost one. What they did is a list of events, and the
events alone say which keys are open: those that were entered and have not been left since. A key is
left as soon as more of the later events have left than have entered, so that keys close in the
reverse of the order in which they were opened.

Results:
* `Guard.stillOpen`: the keys that are entered and not left, read off the events.
* `Guard.call_cases`: all that one call does.
* `Guard.opened_after`: which keys are open after a run of calls, whatever was open before.
* `Guard.Within.after`: they are never more than the limit.
* `Walk.Follows.guard_eq`: a walk that answers hands back the guard that it was given.
* `Guard.stack_law`: the guard as a bounded stack.
-/

namespace Conformance

namespace Guard

/-! ## Calls and events -/

/-- A call on a guard. -/
inductive Call where
  | enter (key : String)
  | leave

/-- What a call did. -/
inductive Event where
  | entered (key : String)
  | refused (e : DepthExceeded)
  | left

namespace Event

def isEntered : Event → Bool
  | entered _ => true
  | _ => false

def isLeft : Event → Bool
  | left => true
  | _ => false

end Event

/-- One call: what it did, and the guard after it. A refused step leaves the guard as it was. -/
def call (g : Guard) : Call → Event × Guard
  | .enter key =>
    match g.enter key with
    | .ok inside => (.entered key, inside)
    | .error e => (.refused e, g)
  | .leave => (.left, g.leave)

/-- The guard after calls, one after the other. -/
def after (g : Guard) : List Call → Guard
  | [] => g
  | c :: rest => (g.call c).2.after rest

/-- What calls did, one after the other. -/
def events (g : Guard) : List Call → List Event
  | [] => []
  | c :: rest => (g.call c).1 :: (g.call c).2.events rest

/-! ## What is still open -/

/-- Did the events step out of what was open before them? At some time more of them had left than
had entered. -/
def stepsOut (later : List Event) : Bool :=
  later.inits.any fun front => front.countP Event.isEntered < front.countP Event.isLeft

/-- The keys that were entered and not left, in the order in which they were entered. -/
def stillOpen : List Event → List String
  | [] => []
  | .entered key :: later => if stepsOut later then stillOpen later else key :: stillOpen later
  | .refused _ :: later => stillOpen later
  | .left :: later => stillOpen later

/-- How many of the levels that were open before them events step out of, given enough. -/
def stepsBack : List Event → Nat
  | [] => 0
  | .entered _ :: later => stepsBack later - 1
  | .refused _ :: later => stepsBack later
  | .left :: later => stepsBack later + 1

/-- At some time the events that left are ahead by more than the given number just when they step
further back than that. -/
theorem exists_ahead_iff {events : List Event} : ∀ {n : Nat},
    (∃ front, front <+: events ∧ front.countP Event.isEntered + n < front.countP Event.isLeft) ↔
      n < stepsBack events := by
  induction events with
  | nil => simp [stepsBack]
  | cons event later ih =>
    intro n
    have hcons : (∃ front, front <+: event :: later ∧
        front.countP Event.isEntered + n < front.countP Event.isLeft) ↔
        ∃ front, front <+: later ∧ (event :: front).countP Event.isEntered + n <
          (event :: front).countP Event.isLeft := by
      constructor
      · rintro ⟨front, hf, hlt⟩
        rcases List.prefix_cons_iff.mp hf with rfl | ⟨front, rfl, hf'⟩
        · simp at hlt
        · exact ⟨front, hf', hlt⟩
      · rintro ⟨front, hf, hlt⟩
        exact ⟨event :: front, List.cons_prefix_cons.mpr ⟨rfl, hf⟩, hlt⟩
    rw [hcons]
    cases event with
    | entered key =>
      rw [stepsBack, show n < stepsBack later - 1 ↔ n + 1 < stepsBack later by omega, ← ih]
      refine exists_congr fun front => and_congr_right fun _ => ?_
      simp [List.countP_cons, Event.isEntered, Event.isLeft]
      omega
    | refused e =>
      rw [stepsBack, ← ih]
      simp [Event.isEntered, Event.isLeft]
    | left =>
      cases n with
      | zero => exact iff_of_true ⟨[], List.nil_prefix, by decide⟩ (Nat.succ_pos _)
      | succ n =>
        rw [stepsBack, Nat.add_lt_add_iff_right, ← ih]
        refine exists_congr fun front => and_congr_right fun _ => ?_
        simp [List.countP_cons, Event.isEntered, Event.isLeft]
        omega

theorem stepsOut_iff {later : List Event} : stepsOut later = true ↔ 0 < stepsBack later := by
  rw [← exists_ahead_iff, stepsOut, List.any_eq_true]
  simp

/-! ## The open keys -/

variable {g : Guard} {n : Nat}

/-- All that a call does under a limit: it opens a key where there is room, is refused where there
is none, or closes the innermost key, if any is open. -/
theorem call_cases (hl : g.limit = some n) (c : Call) :
    (∃ key inside, c = .enter key ∧ g.enter key = .ok inside ∧ g.opened.length < n ∧
      g.call c = (.entered key, inside) ∧ inside.limit = some n ∧
      inside.opened = key :: g.opened) ∨
    (∃ key, c = .enter key ∧ n ≤ g.opened.length ∧
      g.call c = (.refused ⟨n, g.opened.reverse, key⟩, g)) ∨
    (c = .leave ∧ g.call c = (.left, g.leave) ∧ g.leave.limit = some n ∧
      g.leave.opened = g.opened.tail) := by
  have hdepth := g.depth_eq
  cases c with
  | enter key =>
    rcases Nat.lt_or_ge g.depth n with hlt | hge
    · obtain ⟨inside, hi, hil, hio, -⟩ := enter_of_lt hl hlt key
      exact .inl ⟨key, inside, rfl, hi, hdepth ▸ hlt, by rw [call, hi], hil, hio⟩
    · exact .inr (.inl ⟨key, rfl, hdepth ▸ hge, by rw [call, enter_of_le hl hge key]⟩)
  | leave => exact .inr (.inr ⟨rfl, rfl, by simp [leave, hl], by simp [leave, hl]⟩)

/-- The open keys are those that the events entered and did not leave, on top of what they let stand
of the keys that were open before. -/
theorem opened_after (hl : g.limit = some n) (calls : List Call) : (g.after calls).opened =
    (stillOpen (g.events calls)).reverse ++ g.opened.drop (stepsBack (g.events calls)) := by
  induction calls generalizing g with
  | nil => rfl
  | cons c calls ih =>
    rw [after, events]
    obtain ⟨key, inside, -, -, -, hc, hil, hio⟩ | ⟨key, -, -, hc⟩ | ⟨-, hc, hil, hio⟩ :=
      call_cases hl c
    · rw [hc, ih hil, hio, stillOpen, stepsBack]
      -- the key is on top of what was open before: the first level to step back from
      by_cases hout : stepsOut (inside.events calls) = true
      · obtain ⟨k, hk⟩ := Nat.exists_eq_succ_of_ne_zero (stepsOut_iff.mp hout).ne'
        simp [hout, hk]
      · have hk : stepsBack (inside.events calls) = 0 := by
          rw [stepsOut_iff] at hout
          omega
        simp [hout, hk]
    · rw [hc, ih hl, stillOpen, stepsBack]
    · rw [hc, ih hil, hio, stillOpen, stepsBack, List.drop_tail]

/-- The guard has a limit, and no more keys open than it allows. -/
structure Within (n : Nat) (g : Guard) : Prop where
  limit_eq : g.limit = some n
  length_le : g.opened.length ≤ n

theorem Within.call (h : Within n g) (c : Call) : Within n (g.call c).2 := by
  have hlen := h.length_le
  obtain ⟨key, inside, -, hi, -, hc, hil, -⟩ | ⟨key, -, -, hc⟩ | ⟨-, hc, hil, hio⟩ :=
    call_cases h.limit_eq c
  · rw [hc]
    exact ⟨hil, length_le_of_enter h.limit_eq hi⟩
  · rw [hc]
    exact h
  · rw [hc]
    exact ⟨hil, by rw [hio, List.length_tail]; omega⟩

theorem Within.after (h : Within n g) (calls : List Call) : Within n (g.after calls) := by
  induction calls generalizing g with
  | nil => exact h
  | cons c calls ih => exact ih (h.call c)

/-- A step in is refused where the limit leaves no room, and the refusal tells the open keys. -/
theorem Within.enter_eq_error_iff (h : Within n g) {key : String} {e : DepthExceeded} :
    g.enter key = .error e ↔ g.opened.length = n ∧ e = ⟨n, g.opened.reverse, key⟩ := by
  have hdepth := g.depth_eq
  have hlen := h.length_le
  rcases Nat.lt_or_ge g.depth n with hlt | hge
  · obtain ⟨inside, hi, -⟩ := enter_of_lt h.limit_eq hlt key
    rw [hi]
    exact iff_of_false (by rintro ⟨⟩) (by omega)
  · rw [enter_of_le h.limit_eq hge key, Except.error.injEq]
    exact ⟨fun he => ⟨by omega, he.symm⟩, fun he => he.2.symm⟩

theorem call_enter_of_error {key : String} {e : DepthExceeded} (h : g.enter key = .error e) :
    g.call (.enter key) = (.refused e, g) := by
  rw [call, h]

/-- With nothing open there is nothing to leave. -/
theorem leave_of_opened_eq_nil (h : g.opened = []) : g.leave = g := by
  obtain ⟨limit, opened, depth, hd⟩ := g
  subst h hd
  cases limit <;> rfl

/-- The guard that calls lead to is a stack of bounded height: it holds the keys that were entered
and not left, in order and no more than the limit; it refuses a key exactly when it is full, and
names the keys that are open; and a step that is refused changes it as little as leaving does when
nothing is open. -/
structure IsStack (n : Nat) (calls : List Call) (g : Guard) : Prop where
  opened_eq : g.opened.reverse = stillOpen ((ofLimit (some n)).events calls)
  length_le : g.opened.length ≤ n
  refuses_iff : ∀ key e, g.enter key = .error e ↔
    g.opened.length = n ∧ e = ⟨n, g.opened.reverse, key⟩
  refused : ∀ key e, g.enter key = .error e → (g.call (.enter key)).2 = g
  leave_empty : g.opened = [] → (g.call .leave).2 = g

theorem isStack_after (n : Nat) (calls : List Call) :
    IsStack n calls ((ofLimit (some n)).after calls) := by
  have hwithin : Within n ((ofLimit (some n)).after calls) :=
    Within.after ⟨rfl, Nat.zero_le n⟩ calls
  refine ⟨?_, hwithin.length_le, fun key e => hwithin.enter_eq_error_iff, ?_,
    leave_of_opened_eq_nil⟩
  · rw [opened_after rfl, List.reverse_append, List.reverse_reverse]
    simp [ofLimit]
  · intro key e h
    rw [call_enter_of_error h]

end Guard

/-! ## Walks -/

theorem Walk.Follows.guard_eq {α : Type} {w : Walk α} {trace : List (List String)} {a b : α}
    {g g' : Guard} (hw : w.Follows trace a) (h : w g = .ok (b, g')) : g' = g := by
  rw [hw g] at h
  split at h <;> cases h
  rfl

/-- **The guard.** After any calls on a fresh guard of a limit it is a stack of that height, which
holds what was entered and not left. And whatever guard a walk begins with, when the walk answers,
the short one with a failure in the middle too, it hands back the guard it was given. -/
theorem Guard.stack_law (n : Nat) (calls : List Call) (s : Shape) (v : Value) (subset : Bool) :
    IsStack n calls ((ofLimit (some n)).after calls) ∧
      ∀ g : Guard, (∀ r g', s.examine subset v g = .ok (r, g') → g' = g) ∧
        ∀ ok g', s.accepts subset v g = .ok (ok, g') → g' = g := by
  refine ⟨isStack_after n calls, fun g => ⟨fun r g' h => ?_, fun ok g' h => ?_⟩⟩
  · exact (Shape.examine_follows subset s v).guard_eq h
  · obtain ⟨seen, -, hf, -⟩ := Shape.accepts_cutsShort subset s v
    exact hf.guard_eq h

/-- Of four keys, one is left, one is refused and one is left after that. Below the key that stays
both walks fit in, and the short one stops at the first of its two keys. -/
theorem Guard.stack_law_cutShort :
    ∃ g, g = (ofLimit (some 2)).after [.leave, .enter "a", .leave, .enter "b", .enter "c",
        .enter "d", .leave] ∧
      g.opened.reverse = ["b"] ∧
      (∃ r g', (Shape.object [("x", .marker .number), ("y", .any)]).examine false (.object []) g =
        .ok (some r, g') ∧ g' = g) ∧
      ∃ g', (Shape.object [("x", .marker .number), ("y", .any)]).accepts false (.object []) g =
        .ok (false, g') ∧ g' = g := by
  obtain ⟨hstack, hwalks⟩ := stack_law 2 [.leave, .enter "a", .leave, .enter "b", .enter "c",
    .enter "d", .leave] (.object [("x", .marker .number), ("y", .any)]) (.object []) false
  refine ⟨_, rfl, hstack.opened_eq.trans (by decide), ?_, ?_⟩
  · exact ⟨_, _, rfl, (hwalks _).1 _ _ rfl⟩
  · exact ⟨_, rfl, (hwalks _).2 _ _ rfl⟩

end Conformance
