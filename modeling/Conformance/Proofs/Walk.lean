import Conformance.Depth

/-!
# What a walk does under a guard

Which steps a walk takes does not depend on the guard; only how far it gets does. A walk follows a
trace: the steps it takes when none is refused, in order, each given by all the keys from the place
where the walk begins. Under a guard it fails with the first refusal along its trace, and when there
is none it answers and hands the guard back as it was.

Results:
* `Guard.refusal?_eq`: when the way in along some keys is refused, and with what.
* `Walk.Follows.bind`, `Walk.Follows.child`: the trace of a composed walk.
* `Walk.Follows.answer_eq`: the answer of a walk that begins with nothing open.
* `Walk.CutsShort.andThen`: a walk that stops at the first failure follows the front of a trace.
-/

namespace Conformance

/-! ## Refusals -/

namespace Guard

/-- The refusal met on the way in along some keys. -/
def refusal? (g : Guard) (keys : List String) : Option DepthExceeded :=
  match keys.foldlM enter g with
  | .ok _ => none
  | .error e => some e

/-- The first refusal along a trace. -/
def firstRefusal? (g : Guard) (trace : List (List String)) : Option DepthExceeded :=
  trace.findSome? g.refusal?

theorem refusal?_nil (g : Guard) : g.refusal? [] = none := rfl

theorem refusal?_cons_of_ok {g inside : Guard} {key : String} (h : g.enter key = .ok inside)
    (keys : List String) : g.refusal? (key :: keys) = inside.refusal? keys := by
  rw [refusal?, List.foldlM_cons, h]
  rfl

theorem refusal?_cons_of_error {g : Guard} {key : String} {e : DepthExceeded}
    (h : g.enter key = .error e) (keys : List String) : g.refusal? (key :: keys) = some e := by
  rw [refusal?, List.foldlM_cons, h]
  rfl

theorem firstRefusal?_append (g : Guard) (t t' : List (List String)) :
    g.firstRefusal? (t ++ t') = (g.firstRefusal? t).or (g.firstRefusal? t') :=
  List.findSome?_append

theorem firstRefusal?_unlimited (trace : List (List String)) :
    (ofLimit none).firstRefusal? trace = none := by
  have free : ∀ keys, (ofLimit none).refusal? keys = none := by
    intro keys
    induction keys with
    | nil => rfl
    | cons key keys ih =>
      rwa [refusal?_cons_of_ok (show (ofLimit none).enter key = .ok (ofLimit none) from rfl)]
  exact List.findSome?_eq_none_iff.mpr fun keys _ => free keys

theorem enter_of_lt {g : Guard} {n : Nat} (hl : g.limit = some n) (hd : g.depth < n)
    (key : String) : ∃ inside, g.enter key = .ok inside ∧ inside.limit = some n ∧
      inside.opened = key :: g.opened ∧ inside.depth = g.depth + 1 := by
  simp [enter, hl, hd]

theorem enter_of_le {g : Guard} {n : Nat} (hl : g.limit = some n) (hd : n ≤ g.depth)
    (key : String) : g.enter key = .error ⟨n, g.opened.reverse, key⟩ := by
  simp [enter, hl, Nat.not_lt.mpr hd]

/-- The way in is refused at the first key that the limit leaves no room for. -/
theorem refusal?_eq {n : Nat} {keys : List String} :
    ∀ {g : Guard}, g.limit = some n → g.depth ≤ n →
      g.refusal? keys = match keys.drop (n - g.depth) with
        | [] => none
        | key :: _ => some ⟨n, g.opened.reverse ++ keys.take (n - g.depth), key⟩ := by
  induction keys with
  | nil =>
    intro g _ _
    rw [List.drop_nil]
    rfl
  | cons key keys ih =>
    intro g hl hd
    rcases Nat.lt_or_ge g.depth n with hlt | hge
    · obtain ⟨inside, hi, hil, hio, hid⟩ := enter_of_lt hl hlt key
      have hroom : n - g.depth = n - inside.depth + 1 := by omega
      rw [refusal?_cons_of_ok hi, ih hil (by omega), hroom, List.drop_succ_cons,
        List.take_succ_cons, hio, List.reverse_cons, List.append_assoc, List.singleton_append]
    · have hroom : n - g.depth = 0 := by omega
      rw [refusal?_cons_of_error (enter_of_le hl hge key), hroom, List.drop_zero, List.take_zero,
        List.append_nil]

section Limited

variable {g : Guard} {n : Nat} {keys : List String}

theorem refusal?_eq_none_iff (hl : g.limit = some n) (hd : g.depth ≤ n) :
    g.refusal? keys = none ↔ g.depth + keys.length ≤ n := by
  have hfits : keys.drop (n - g.depth) = [] ↔ g.depth + keys.length ≤ n := by
    rw [List.drop_eq_nil_iff]
    omega
  rw [refusal?_eq hl hd, ← hfits]
  cases keys.drop (n - g.depth) <;> simp

/-- A refusal holds the limit, and the keys of the way in up to the first one past it. -/
theorem opened_of_refusal? {e : DepthExceeded} (hl : g.limit = some n) (hd : g.depth ≤ n)
    (h : g.refusal? keys = some e) :
    e.limit = n ∧ e.opened ++ [e.key] = g.opened.reverse ++ keys.take (n - g.depth + 1) := by
  rw [refusal?_eq hl hd] at h
  split at h
  next => cases h
  next key rest hdrop =>
    have hkey : keys[n - g.depth]? = some key := by
      rw [← List.head?_drop, hdrop, List.head?_cons]
    cases h
    rw [List.take_add_one, hkey, List.append_assoc]
    exact ⟨rfl, rfl⟩

end Limited

end Guard

/-! ## Traces -/

namespace Walk

variable {α β : Type} {w : Walk α} {t t' : List (List String)} {a : α}

/-- The trace of a step into the child under a key, followed by a trace from there. -/
def into (key : String) (trace : List (List String)) : List (List String) :=
  [key] :: trace.map (key :: ·)

/-- The walk takes the steps of the trace in order, as far as the guard lets it, and then answers
with the guard it was given. -/
def Follows (w : Walk α) (trace : List (List String)) (a : α) : Prop :=
  ∀ g, w g = match g.firstRefusal? trace with
    | some e => .error e
    | none => .ok (a, g)

theorem firstRefusal?_into_of_ok {g inside : Guard} {key : String}
    (h : g.enter key = .ok inside) (trace : List (List String)) :
    g.firstRefusal? (into key trace) = inside.firstRefusal? trace := by
  rw [Guard.firstRefusal?, into, List.findSome?_cons, Guard.refusal?_cons_of_ok h,
    Guard.refusal?_nil, List.findSome?_map]
  exact congrArg (trace.findSome? ·) (funext fun keys => Guard.refusal?_cons_of_ok h keys)

theorem firstRefusal?_into_of_error {g : Guard} {key : String} {e : DepthExceeded}
    (h : g.enter key = .error e) (trace : List (List String)) :
    g.firstRefusal? (into key trace) = some e := by
  rw [Guard.firstRefusal?, into, List.findSome?_cons, Guard.refusal?_cons_of_error h]

theorem Follows.pure (a : α) : Follows (Pure.pure a : Walk α) [] a := fun _ => rfl

theorem Follows.bind {f : α → Walk β} {b : β} (hw : Follows w t a) (hf : Follows (f a) t' b) :
    Follows (w >>= f) (t ++ t') b := by
  intro g
  have hb : (w >>= f) g = w g >>= fun r => f r.1 r.2 := rfl
  rw [hb, hw g, Guard.firstRefusal?_append]
  cases g.firstRefusal? t with
  | some e => rfl
  | none => exact hf g

theorem Follows.map (f : α → β) (hw : Follows w t a) : Follows (f <$> w) t (f a) := by
  have h := hw.bind (f := fun a => Pure.pure (f a)) (Follows.pure (f a))
  rwa [List.append_nil] at h

theorem Follows.child (key : String) (hw : Follows w t a) :
    Follows (Walk.child key w) (into key t) a := by
  intro g
  have hc : Walk.child key w g =
      g.enter key >>= fun inside => w inside >>= fun r => Except.ok (r.1, r.2.leave) := rfl
  rw [hc]
  cases h : g.enter key with
  | error e =>
    rw [firstRefusal?_into_of_error h]
    rfl
  | ok inside =>
    rw [firstRefusal?_into_of_ok h, ← Guard.leave_of_enter h]
    change (w inside >>= fun r => Except.ok (r.1, r.2.leave)) = _
    rw [hw inside]
    cases inside.firstRefusal? t <;> rfl

/-- A walk that begins with nothing open answers unless a step of its trace is refused. -/
theorem Follows.answer_eq (hw : Follows w t a) (limit : Option Nat) :
    w.answer limit = match (Guard.ofLimit limit).firstRefusal? t with
      | some e => .error e
      | none => .ok a := by
  rw [answer, hw]
  cases (Guard.ofLimit limit).firstRefusal? t <;> rfl

theorem Follows.answer_unlimited (hw : Follows w t a) : w.answer none = .ok a := by
  rw [hw.answer_eq, Guard.firstRefusal?_unlimited]

/-! ## Walks that stop early -/

/-- The walk says whether all is well and follows the front of the trace: the whole of it when all
is well. -/
def CutsShort (w : Walk Bool) (trace : List (List String)) (fine : Bool) : Prop :=
  ∃ seen, seen <+: trace ∧ Follows w seen fine ∧ (fine = true → seen = trace)

variable {v v' : Walk Bool} {fine fine' : Bool}

theorem CutsShort.pure (fine : Bool) : CutsShort (Pure.pure fine) [] fine :=
  ⟨[], List.prefix_rfl, Follows.pure fine, fun _ => rfl⟩

theorem CutsShort.refuse (t : List (List String)) : CutsShort (Pure.pure false) t false :=
  ⟨[], List.nil_prefix, Follows.pure false, fun h => by cases h⟩

theorem CutsShort.child (key : String) (h : CutsShort v t fine) :
    CutsShort (Walk.child key v) (into key t) fine := by
  obtain ⟨seen, hp, hf, hall⟩ := h
  refine ⟨into key seen, ?_, hf.child key, fun hfine => by rw [hall hfine]⟩
  exact List.cons_prefix_cons.mpr ⟨rfl, hp.map _⟩

/-- The second walk begins only when the first one found nothing wrong. -/
theorem CutsShort.andThen (h : CutsShort v t fine) (h' : CutsShort v' t' fine') :
    CutsShort (do match ← v with
      | true => v'
      | false => Pure.pure false) (t ++ t') (fine && fine') := by
  obtain ⟨seen, hp, hf, hall⟩ := h
  obtain ⟨seen', hp', hf', hall'⟩ := h'
  cases fine with
  | false =>
    refine ⟨seen, hp.trans (List.prefix_append t t'), ?_, fun hfine => by cases hfine⟩
    have hseq := hf.bind (f := fun ok => match ok with
      | true => v'
      | false => Pure.pure false) (Follows.pure false)
    rwa [List.append_nil] at hseq
  | true =>
    have hs : seen = t := hall rfl
    subst hs
    refine ⟨seen ++ seen', ?_, hf.bind hf', fun hfine => by rw [hall' hfine]⟩
    exact (List.prefix_append_right_inj seen).mpr hp'

end Walk

end Conformance
