import Mathlib.Algebra.Order.Ring.Int
import Mathlib.Logic.Relation

/-!
# Halting computations and labelled runs

Kernel code either returns, stops the machine on purpose, or leaves the part of
the world a model can speak about.  `Halt` keeps the three ways of not
returning apart, so that a statement can treat a deliberate stop as the end of
a run and still exclude every stray access and every endless loop.

`Follows` compares two computations, one of which goes wherever the other does.

The last part of the file is the induction that lifts a one-step fact to whole
runs of a labelled transition relation.
-/

namespace SysCore.Transition

universe u v w

inductive Halt where
  /-- The code prints a message and shuts the machine down. -/
  | panic
  /-- The code does what the language leaves undefined, such as touching memory
  outside the object it indexes. -/
  | stray
  /-- The code keeps looping. -/
  | hang
  deriving DecidableEq, Repr

abbrev Outcome (α : Type u) := Except Halt α

section Holds

variable {α : Type u} {β : Type u}

/-- Every result satisfies `post`; a panic ends the run and is accepted, a
stray access or an endless loop is not. -/
def Holds (outcome : Outcome α) (post : α → Prop) : Prop :=
  match outcome with
  | .ok result => post result
  | .error .panic => True
  | .error .stray => False
  | .error .hang => False

@[simp]
theorem holds_ok (result : α) (post : α → Prop) : Holds (.ok result) post ↔ post result :=
  Iff.rfl

@[simp]
theorem holds_pure (result : α) (post : α → Prop) : Holds (pure result) post ↔ post result :=
  Iff.rfl

@[simp]
theorem holds_panic (post : α → Prop) : Holds (.error .panic) post :=
  trivial

theorem holds_bind (first : Outcome α) (next : α → Outcome β) (post : β → Prop) :
    Holds (first >>= next) post ↔ Holds first fun result => Holds (next result) post := by
  cases first with
  | ok result => exact Iff.rfl
  | error halt => cases halt <;> exact Iff.rfl

theorem Holds.mono {outcome : Outcome α} {post weaker : α → Prop} (holds : Holds outcome post)
    (imp : ∀ result, post result → weaker result) : Holds outcome weaker := by
  cases outcome with
  | ok result => exact imp result holds
  | error halt => cases halt <;> exact holds

theorem Holds.returned {outcome : Outcome α} {post : α → Prop} (holds : Holds outcome post) :
    Holds outcome fun result => outcome = .ok result ∧ post result := by
  cases outcome with
  | ok result => exact ⟨rfl, holds⟩
  | error halt => cases halt <;> exact holds

theorem Holds.result {outcome : Outcome α} {post : α → Prop} {result : α}
    (holds : Holds outcome post) (returned : outcome = .ok result) : post result := by
  subst returned
  exact holds

@[simp]
theorem ok_bind (result : α) (next : α → Outcome β) : (.ok result : Outcome α) >>= next = next result :=
  rfl

@[simp]
theorem error_bind (halt : Halt) (next : α → Outcome β) :
    (.error halt : Outcome α) >>= next = .error halt :=
  rfl

theorem bind_eq_ok {first : Outcome α} {next : α → Outcome β} {result : β} :
    first >>= next = .ok result ↔ ∃ middle, first = .ok middle ∧ next middle = .ok result := by
  cases first with
  | ok middle => simp [bind, Except.bind]
  | error halt => simp [bind, Except.bind]

def passes (outcome : Outcome α) (test : α → Bool) : Bool :=
  match outcome with
  | .ok result => test result
  | .error _ => false

theorem passes_iff {outcome : Outcome α} {test : α → Bool} :
    passes outcome test = true ↔ ∃ result, outcome = .ok result ∧ test result = true := by
  cases outcome <;> simp [passes]

def Returns (enough : Prop) (outcome : Outcome α) (post : α → Prop) : Prop :=
  Holds outcome post ∧ (enough → ∃ result, outcome = .ok result)

namespace Returns

variable {enough : Prop} {outcome : Outcome α} {post : α → Prop}

theorem of_ok {result : α} (fulfilled : post result) : Returns enough (.ok result) post :=
  ⟨fulfilled, fun _ => ⟨result, rfl⟩⟩

theorem of_panic (never : ¬ enough) : Returns enough (.error .panic : Outcome α) post :=
  ⟨trivial, fun holds => absurd holds never⟩

theorem mono {more : Prop} {weaker : α → Prop} (returns : Returns enough outcome post)
    (less : more → enough) (imp : ∀ result, post result → weaker result) :
    Returns more outcome weaker :=
  ⟨returns.1.mono imp, fun holds => returns.2 (less holds)⟩

theorem bind {next : α → Outcome β} {final : β → Prop} (returns : Returns enough outcome post)
    (rest : ∀ result, post result → Returns enough (next result) final) :
    Returns enough (outcome >>= next) final := by
  refine ⟨(holds_bind _ _ _).2 (returns.1.mono fun result fulfilled => (rest result fulfilled).1), ?_⟩
  intro holds
  obtain ⟨result, rfl⟩ := returns.2 holds
  exact (rest result returns.1).2 holds

theorem exists_ok (returns : Returns enough outcome post) (holds : enough) :
    ∃ result, outcome = .ok result ∧ post result := by
  obtain ⟨result, returned⟩ := returns.2 holds
  exact ⟨result, returned, returns.1.result returned⟩

end Returns

end Holds

section Follows

variable {α : Type u} {β : Type v}

def Follows (related : α → β → Prop) (first : Outcome α) (second : Outcome β) : Prop :=
  ∀ result, first = .ok result → ∃ other, second = .ok other ∧ related result other

namespace Follows

variable {related weaker : α → β → Prop} {first : Outcome α} {second : Outcome β}

theorem of_ok {result : α} {other : β} (fulfilled : related result other) :
    Follows related (.ok result) (.ok other) := by
  rintro _ ⟨⟩
  exact ⟨other, rfl, fulfilled⟩

theorem refl (outcome : Outcome α) : Follows Eq outcome outcome :=
  fun result returned => ⟨result, returned, rfl⟩

theorem of_error (halt : Halt) : Follows related (.error halt) second :=
  nofun

theorem mono (follows : Follows related first second)
    (imp : ∀ result other, first = .ok result → related result other → weaker result other) :
    Follows weaker first second := by
  intro result returned
  obtain ⟨other, followed, fulfilled⟩ := follows result returned
  exact ⟨other, followed, imp result other returned fulfilled⟩

theorem bind {γ : Type u} {δ : Type v} {final : γ → δ → Prop} {next : α → Outcome γ}
    {next' : β → Outcome δ} (follows : Follows related first second)
    (rest : ∀ result other, first = .ok result → related result other →
      Follows final (next result) (next' other)) :
    Follows final (first >>= next) (second >>= next') := by
  intro result returned
  obtain ⟨middle, first_eq, next_eq⟩ := bind_eq_ok.1 returned
  obtain ⟨other, second_eq, fulfilled⟩ := follows middle first_eq
  obtain ⟨last, last_eq, related_last⟩ := rest middle other first_eq fulfilled result next_eq
  exact ⟨last, bind_eq_ok.2 ⟨other, second_eq, last_eq⟩, related_last⟩

end Follows

def Answers {α σ τ : Type u} (related : σ → τ → Prop) (r₁ : α × σ) (r₂ : α × τ) : Prop :=
  r₂.1 = r₁.1 ∧ related r₁.2 r₂.2

theorem Follows.next {α σ τ γ δ : Type u} {related : σ → τ → Prop} {final : γ → δ → Prop}
    {first : Outcome (α × σ)} {second : Outcome (α × τ)} {next : α × σ → Outcome γ}
    {next' : α × τ → Outcome δ} (follows : Follows (Answers related) first second)
    (rest : ∀ answer state state', first = .ok (answer, state) → related state state' →
      Follows final (next (answer, state)) (next' (answer, state'))) :
    Follows final (first >>= next) (second >>= next') := by
  refine follows.bind ?_
  rintro ⟨_, state⟩ ⟨answer, state'⟩ first_eq ⟨rfl, fulfilled⟩
  exact rest _ state state' first_eq fulfilled

end Follows

section Run

variable {σ : Type u} {ι : Type v} {step : σ → ι → σ → Prop} {start target : σ} {labels : List ι}

inductive Run (step : σ → ι → σ → Prop) (start : σ) : List ι → σ → Prop
  | nil : Run step start [] start
  | snoc {labels : List ι} {label : ι} {middle target : σ} :
      Run step start labels middle → step middle label target →
      Run step start (labels ++ [label]) target

theorem Run.invariant {step : σ → ι → σ → Prop} {inv : σ → Prop}
    (preserved : ∀ {source label target}, inv source → step source label target → inv target)
    {start target : σ} {labels : List ι} (run : Run step start labels target)
    (initially : inv start) : inv target := by
  induction run with
  | nil => exact initially
  | snoc _ last ih => exact preserved ih last

theorem Run.history (inv : List ι → σ → Prop) (preserved : ∀ {labels label source target},
      inv labels source → step source label target → inv (labels ++ [label]) target)
    (run : Run step start labels target) (initially : inv [] start) : inv labels target := by
  induction run with
  | nil => exact initially
  | snoc _ last ih => exact preserved ih last

theorem Run.of_foldlM {next : σ → ι → Outcome σ}
    (sound : ∀ {source label target}, next source label = .ok target → step source label target)
    {middle : σ} {more : List ι} (run : Run step start labels middle)
    (computed : more.foldlM next middle = .ok target) : Run step start (labels ++ more) target := by
  induction more generalizing labels middle with
  | nil =>
    cases computed
    simpa using run
  | cons label more ih =>
    rw [List.foldlM_cons] at computed
    obtain ⟨after, next_eq, rest_eq⟩ := bind_eq_ok.1 computed
    simpa using ih (run.snoc (sound next_eq)) rest_eq

end Run

end SysCore.Transition
