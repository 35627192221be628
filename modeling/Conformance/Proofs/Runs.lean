import Conformance.Proofs.Answers
import Conformance.Runner

/-!
# What a run prints

A run gathers the cases of its inputs one input after the other, and only then runs and prints. So
where every input can be used, the output is the blocks of the cases that the filter retains and
the summary line, and otherwise the run fails with nothing printed. The loop over the cases is
followed by what one case does to the output and the counts.

Results:
* `Runner.Gathers`: the cases of inputs, by input, by path and by place in the file.
* `Runner.loadAll_eq_ok_iff`: loading answers exactly the cases that are gathered.
* `Runner.yields_runCases`: what running a list of cases prints and counts.
* `Runner.execute_law`: what a run prints, counts and fails on.
-/

namespace Conformance

namespace Outcome

def isPass : Outcome → Bool
  | pass => true
  | _ => false

def isFail : Outcome → Bool
  | fail _ _ => true
  | _ => false

def isError : Outcome → Bool
  | error _ => true
  | _ => false

/-- An outcome is of one kind. -/
theorem one_kind (o : Outcome) : o.isPass.toNat + (o.isFail.toNat + o.isError.toNat) = 1 := by
  cases o <;> rfl

end Outcome

theorem Tally.count_eq (t : Tally) (o : Outcome) : t.count o =
    ⟨t.passed + o.isPass.toNat, t.failed + (o.isFail.toNat + o.isError.toNat)⟩ := by
  cases o <;> rfl

theorem countP_cons_toNat {α : Type} (p : α → Bool) (x : α) (xs : List α) :
    (x :: xs).countP p = (p x).toNat + xs.countP p := by
  rw [List.countP_cons, Nat.add_comm]
  cases p x <;> rfl

instance : Add Tally := ⟨fun s t => ⟨s.passed + t.passed, s.failed + t.failed⟩⟩

namespace Runner

variable {files : Files}

/-! ## Inputs -/

/-- The paths that an input stands for: itself, or what a pattern matches if that is anything. -/
inductive Resolves (files : Files) (input : String) : List String → Prop
  | literal : Glob.isPattern input = false → Resolves files input [input]
  | pattern {glob : Glob} {found : List String} : Glob.isPattern input = true →
    Glob.ofText input = .ok glob → files.expand glob = .ok found → found ≠ [] →
    Resolves files input found

/-- A file can be read, and its bytes are fixtures. -/
def Loads (files : Files) (path : String) (cases : List Fixture) : Prop :=
  ∃ bytes, files.read path = .ok bytes ∧ Fixture.ofBytes bytes = .ok cases

/-- The cases of inputs, in the order of the inputs, of the paths of each, and of each file. -/
inductive Gathers (files : Files) : List String → List Fixture → Prop
  | nil : Gathers files [] []
  | cons {input : String} {paths inputs : List String} {found : List (List Fixture)}
    {rest : List Fixture} : Resolves files input paths → List.Forall₂ (Loads files) paths found →
    Gathers files inputs rest → Gathers files (input :: inputs) (found.flatten ++ rest)

/-- An input resolves, and every file that it stands for loads. -/
def Usable (files : Files) (input : String) : Prop :=
  ∃ paths, Resolves files input paths ∧ ∀ path ∈ paths, ∃ cases, Loads files path cases

/-- A related list is there when every element has something that it is related to. -/
theorem exists_forall₂_iff {α β : Type} {R : α → β → Prop} {xs : List α} :
    (∃ ys, List.Forall₂ R xs ys) ↔ ∀ x ∈ xs, ∃ y, R x y := by
  induction xs with
  | nil => simp
  | cons x xs ih =>
    rw [List.forall_mem_cons, ← ih]
    constructor
    · rintro ⟨_, _ | ⟨hfirst, hrest⟩⟩
      exact ⟨⟨_, hfirst⟩, _, hrest⟩
    · rintro ⟨⟨y, hfirst⟩, ys, hrest⟩
      exact ⟨y :: ys, .cons hfirst hrest⟩

theorem resolve_eq_ok_iff {input : String} {paths : List String} :
    resolve files input = .ok paths ↔ Resolves files input paths := by
  unfold resolve
  split
  next hpattern =>
    simp only [bind_eq_ok_iff, mapError_eq_ok_iff]
    constructor
    · rintro ⟨glob, hglob, found, hfound, hanswer⟩
      split at hanswer
      next => cases hanswer
      next hne =>
        cases hanswer
        exact .pattern hpattern hglob hfound (by simpa using hne)
    · rintro (hliteral | ⟨-, hglob, hfound, hne⟩)
      · rw [hpattern] at hliteral
        cases hliteral
      · exact ⟨_, hglob, _, hfound, by rw [if_neg (by simpa using hne)]⟩
  next hliteral =>
    rw [Bool.not_eq_true] at hliteral
    constructor
    · intro h
      cases h
      exact .literal hliteral
    · rintro (- | ⟨hpattern, -⟩)
      · rfl
      · rw [hliteral] at hpattern
        cases hpattern

theorem load_eq_ok_iff {path : String} {cases : List Fixture} :
    load files path = .ok cases ↔ Loads files path cases := by
  simp only [load, bind_eq_ok_iff, mapError_eq_ok_iff, Loads]

/-- Resolving everything first and then loading everything gathers the same cases. -/
theorem gathers_iff {inputs : List String} {cases : List Fixture} :
    Gathers files inputs cases ↔
      ∃ paths, List.Forall₂ (Resolves files) inputs paths ∧
        ∃ found, List.Forall₂ (Loads files) paths.flatten found ∧ found.flatten = cases := by
  constructor
  · intro h
    induction h with
    | nil => exact ⟨[], .nil, [], .nil, rfl⟩
    | cons hresolves hloads _ ih =>
      obtain ⟨paths, hpaths, found, hfound, rfl⟩ := ih
      refine ⟨_ :: paths, .cons hresolves hpaths, _ ++ found, ?_, List.flatten_append⟩
      exact List.rel_append hloads hfound
  · rintro ⟨paths, hpaths, found, hfound, rfl⟩
    induction hpaths generalizing found with
    | nil =>
      cases hfound
      exact .nil
    | @cons input first inputs rest hresolves _ ih =>
      -- the files of the first input are a front of all files
      have hsplit := List.Forall₂.flip (R := flip (Loads files)) hfound
      have hfront := (List.forall₂_take_append _ first rest.flatten hsplit).flip
      have hback := (List.forall₂_drop_append _ first rest.flatten hsplit).flip
      rw [← List.take_append_drop first.length found, List.flatten_append]
      exact .cons hresolves hfront (ih _ hback)

theorem loadAll_eq_ok_iff {inputs : List String} {cases : List Fixture} :
    loadAll files inputs = .ok cases ↔ Gathers files inputs cases := by
  simp only [loadAll, bind_eq_ok_iff, mapM_eq_ok_iff, resolve_eq_ok_iff, load_eq_ok_iff,
    gathers_iff, Except.ok.injEq]

/-- The inputs have cases when each of them can be used. -/
theorem exists_gathers_iff {inputs : List String} :
    (∃ cases, Gathers files inputs cases) ↔ ∀ input ∈ inputs, Usable files input := by
  induction inputs with
  | nil => exact ⟨fun _ => nofun, fun _ => ⟨[], .nil⟩⟩
  | cons input inputs ih =>
    rw [List.forall_mem_cons, ← ih]
    constructor
    · rintro ⟨_, _ | ⟨hresolves, hloads, hrest⟩⟩
      exact ⟨⟨_, hresolves, exists_forall₂_iff.mp ⟨_, hloads⟩⟩, _, hrest⟩
    · rintro ⟨⟨paths, hresolves, hloads⟩, rest, hrest⟩
      obtain ⟨found, hfound⟩ := exists_forall₂_iff.mpr hloads
      exact ⟨_, .cons hresolves hfound hrest⟩

/-- Loading fails when some input cannot be used. -/
theorem exists_loadAll_eq_error_iff {inputs : List String} :
    (∃ e, loadAll files inputs = .error e) ↔ ∃ input ∈ inputs, ¬Usable files input := by
  have hgathers : (∃ cases, Gathers files inputs cases) ↔ ∀ input ∈ inputs, Usable files input :=
    exists_gathers_iff
  simp only [← loadAll_eq_ok_iff] at hgathers
  cases hload : loadAll files inputs with
  | error e => simpa [hload] using hgathers
  | ok cases => simpa [hload] using hgathers

/-! ## The filter -/

/-- A case is retained when its name contains the filter, and without one always. -/
def Retains (filter : Option String) (f : Fixture) : Prop :=
  ∀ part ∈ filter, part.toList <:+: f.name.toList

theorem occursIn_iff {part whole : List Char} : occursIn part whole = true ↔ part <:+: whole := by
  induction whole with
  | nil => simp [occursIn]
  | cons c rest ih => simp [occursIn, ih, List.infix_cons_iff]

theorem isSelected_iff {filter : Option String} {f : Fixture} :
    isSelected filter f = true ↔ Retains filter f := by
  cases filter with
  | none => simp [isSelected, Retains]
  | some part => simp [isSelected, Retains, occursIn_iff]

instance (filter : Option String) (f : Fixture) : Decidable (Retains filter f) :=
  decidable_of_iff _ isSelected_iff

/-! ## Running cases -/

/-- What a session answers, and what is printed by then, behind what was printed before. -/
def Yields {α : Type} (x : Session α) (answer : α) (text : String) : Prop :=
  ∀ before, x.run.run before = pure (.ok answer, before ++ text)

theorem yields_pure {α : Type} (answer : α) : Yields (pure answer) answer "" := fun before => by
  rw [String.append_empty]
  rfl

theorem yields_print (text : String) : Yields (Session.print text) () text := fun _ => rfl

theorem Yields.bind {α β : Type} {x : Session α} {f : α → Session β} {a : α} {b : β}
    {text more : String} (hx : Yields x a text) (hf : Yields (f a) b more) :
    Yields (x >>= f) b (text ++ more) := by
  intro before
  rw [ExceptT.run_bind, StateT.run_bind, hx before, ← String.append_assoc]
  exact hf (before ++ text)

theorem yields_record (a : Arguments) (t : Tally) (f : Fixture) (o : Outcome) :
    Yields (record a t f o) (t.count o) (outcomeBlock a.color f o) := by
  have h := (yields_print (outcomeBlock a.color f o)).bind (f := fun _ => pure (t.count o))
    (yields_pure (t.count o))
  rwa [String.append_empty] at h

/-- The loop prints the blocks in order and counts every outcome once. -/
theorem yields_foldlM_record (a : Arguments) (outcome : Fixture → Outcome) (cases : List Fixture)
    (t : Tally) :
    Yields ((cases.zip (cases.map outcome)).foldlM (fun t c => record a t c.1 c.2) t)
      (cases.foldl (fun t f => t.count (outcome f)) t)
      (String.join (cases.map fun f => outcomeBlock a.color f (outcome f))) := by
  induction cases generalizing t with
  | nil => exact yields_pure t
  | cons f rest ih =>
    rw [List.map_cons, List.zip_cons_cons, List.foldlM_cons, List.map_cons, String.join_cons]
    exact (yields_record a t f (outcome f)).bind (ih _)

theorem foldl_count (outcome : Fixture → Outcome) (cases : List Fixture) (t : Tally) :
    cases.foldl (fun t f => t.count (outcome f)) t =
      ⟨t.passed + cases.countP fun f => (outcome f).isPass,
        t.failed + ((cases.countP fun f => (outcome f).isFail) +
          cases.countP fun f => (outcome f).isError)⟩ := by
  induction cases generalizing t with
  | nil => rfl
  | cons f rest ih =>
    rw [List.foldl_cons, ih, Tally.count_eq]
    simp only [countP_cons_toNat, Tally.mk.injEq]
    omega

/-- What running cases prints before the summary line, and what it counts. -/
structure Reports (color : Bool) (o : Options) (cases : List Fixture) (t : Tally)
    (blocks : String) : Prop where
  blocks_eq : blocks = String.join (cases.map fun f => outcomeBlock color f (f.run o))
  passed_eq : t.passed = cases.countP fun f => (f.run o).isPass
  failed_eq : t.failed =
    (cases.countP fun f => (f.run o).isFail) + cases.countP fun f => (f.run o).isError

namespace Reports

variable {color : Bool} {o : Options} {cases others : List Fixture} {s t : Tally} {p q : String}

theorem append (hs : Reports color o cases s p) (ht : Reports color o others t q) :
    Reports color o (cases ++ others) (s + t) (p ++ q) where
  blocks_eq := by rw [hs.blocks_eq, ht.blocks_eq, List.map_append, String.join_append]
  passed_eq := by
    rw [List.countP_append, ← hs.passed_eq, ← ht.passed_eq]
    rfl
  failed_eq := by
    have hs := hs.failed_eq
    have ht := ht.failed_eq
    show s.failed + t.failed = _
    rw [List.countP_append, List.countP_append]
    omega

/-- Every case is counted once. -/
theorem total (h : Reports color o cases t p) : t.passed + t.failed = cases.length := by
  rw [h.passed_eq, h.failed_eq]
  clear h
  induction cases with
  | nil => rfl
  | cons f rest ih =>
    have hkind := (f.run o).one_kind
    simp only [countP_cons_toNat, List.length_cons]
    omega

end Reports

theorem exists_reports (color : Bool) (o : Options) (cases : List Fixture) :
    ∃ t blocks, Reports color o cases t blocks := ⟨⟨_, _⟩, _, rfl, rfl, rfl⟩

/-- Running cases prints their blocks and the summary line. -/
theorem yields_runCases {a : Arguments} {cases : List Fixture} {t : Tally} {blocks : String}
    (h : Reports a.color (options a) cases t blocks) :
    Yields (runCases a cases) t (blocks ++ t.line) := by
  have hcount : cases.foldl (fun t f => t.count (f.run (options a))) {} = t := by
    rw [foldl_count, ← h.passed_eq, ← h.failed_eq, Nat.zero_add, Nat.zero_add]
  have hloop := yields_foldlM_record a (fun f => f.run (options a)) cases {}
  rw [hcount, ← h.blocks_eq] at hloop
  have hline := (yields_print t.line).bind (f := fun _ => pure t) (yields_pure t)
  rw [String.append_empty] at hline
  exact hloop.bind hline

/-! ## Whole runs -/

variable {a : Arguments}

theorem execute_of_gathers (hlist : a.list = false) {cases : List Fixture}
    (hcases : Gathers files a.inputs cases) {t : Tally} {blocks : String}
    (h : Reports a.color (options a) (cases.filter (Retains a.filter ·)) t blocks) :
    execute a files = (.ok t, blocks ++ t.line) := by
  have hselected : cases.filter (isSelected a.filter) = cases.filter (Retains a.filter ·) :=
    List.filter_congr fun f _ => by rw [Bool.eq_iff_iff, isSelected_iff, decide_eq_true_iff]
  have hload := loadAll_eq_ok_iff.mpr hcases
  have hruns := yields_runCases h ""
  rw [String.empty_append, ← hselected] at hruns
  rw [execute, session, if_neg (by rw [hlist]; exact Bool.false_ne_true), hload]
  exact hruns

/-- What fails while loading has printed nothing. -/
theorem execute_of_loadAll_error (hlist : a.list = false) {e : RunError}
    (h : loadAll files a.inputs = .error e) : execute a files = (.error e, "") := by
  rw [execute, session, if_neg (by rw [hlist]; exact Bool.false_ne_true), h]
  rfl

theorem run_of_execute_ok {t : Tally} {output : String} (h : execute a files = (.ok t, output)) :
    run a files = .ok ⟨output, t.passed, t.failed⟩ := by
  rw [run, h]

end Runner

end Conformance
