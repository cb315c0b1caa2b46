import Mathlib.Data.List.Forall2

/-!
Computations that may fail, one after the other, and lists that are related one by one.
-/

namespace PseudoLang

variable {ε α β : Type}

/-- A list that is related to two in a row consists of two. -/
theorem forall₂_append_left {related : α → β → Prop} {as more : List α} {bs : List β}
    (h : List.Forall₂ related (as ++ more) bs) :
    ∃ first rest, List.Forall₂ related as first ∧ List.Forall₂ related more rest ∧
      bs = first ++ rest := by
  have flipped : List.Forall₂ (flip related) bs (as ++ more) := List.Forall₂.flip h
  have first := List.forall₂_take_append bs as more flipped
  have rest := List.forall₂_drop_append bs as more flipped
  exact ⟨_, _, first.flip, rest.flip, (List.take_append_drop as.length bs).symm⟩

theorem ok_bind (a : α) (f : α → Except ε β) : Except.ok a >>= f = f a := rfl

theorem error_bind (e : ε) (f : α → Except ε β) : Except.error e >>= f = .error e := rfl

theorem exists_of_isOk {x : Except ε α} (h : x.isOk = true) : ∃ a, x = .ok a := by
  cases x with
  | error e => cases h
  | ok a => exact ⟨a, rfl⟩

/-- A result of two computations comes from a result of each. -/
theorem bind_eq_ok {x : Except ε α} {f : α → Except ε β} {b : β} :
    x >>= f = .ok b ↔ ∃ a, x = .ok a ∧ f a = .ok b := by
  cases x with
  | error e => simp [error_bind]
  | ok a => simp [ok_bind]

theorem mapError_eq_ok {x : Except ε α} {f : ε → β} {a : α} :
    x.mapError f = .ok a ↔ x = .ok a := by
  cases x <;> simp [Except.mapError]

theorem forM_eq_ok {f : α → Except ε Unit} {as : List α} :
    as.forM f = .ok () ↔ ∀ a ∈ as, f a = .ok () := by
  induction as with
  | nil => simp [pure, Except.pure]
  | cons a as ih =>
    rw [List.forM, bind_eq_ok, List.forall_mem_cons, ← ih]
    exact ⟨fun ⟨_, here, rest⟩ => ⟨here, rest⟩, fun ⟨here, rest⟩ => ⟨(), here, rest⟩⟩

/-- Results of all computations of a list make up the list of the results. -/
theorem mapM_of_forall₂ {f : α → Except ε β} {as : List α} {bs : List β}
    (h : List.Forall₂ (fun b a => f a = .ok b) bs as) : as.mapM f = .ok bs := by
  induction h with
  | nil => rfl
  | cons first _ ih =>
    rw [List.mapM_cons, first, ok_bind, ih, ok_bind]
    rfl

/-- What holds of every result holds of the list of the results, in the same order. -/
theorem forall₂_of_mapM {γ : Type} {f : α → Except ε β} {holds : β → γ → Prop} {as : List α}
    {cs : List γ} (h : List.Forall₂ (fun c a => ∀ b, f a = .ok b → holds b c) cs as) :
    ∀ {bs : List β}, as.mapM f = .ok bs → List.Forall₂ holds bs cs := by
  induction h with
  | nil =>
    intro bs none
    cases none
    exact .nil
  | cons first _ ih =>
    intro bs all
    rw [List.mapM_cons] at all
    obtain ⟨b, one, all⟩ := bind_eq_ok.mp all
    obtain ⟨more, rest, all⟩ := bind_eq_ok.mp all
    cases all
    exact .cons (first b one) (ih rest)

/-! ## What holds of a result -/

/-- If there is a result, it is good. -/
def Gives (result : Except ε α) (good : α → Prop) : Prop := ∀ a, result = .ok a → good a

namespace Gives

variable {good : α → Prop} {result : Except ε α}

theorem ok {a : α} (h : good a) : Gives (.ok a : Except ε α) good := by
  rintro _ ⟨⟩
  exact h

theorem bind {next : α → Except ε β} {post : β → Prop} (h : Gives result good)
    (hn : ∀ a, good a → Gives (next a) post) : Gives (result >>= next) post := by
  intro b both
  obtain ⟨a, first, second⟩ := bind_eq_ok.mp both
  exact hn a (h a first) b second

theorem mapM {f : α → Except ε β} {post : β → Prop} {as : List α}
    (h : ∀ a ∈ as, Gives (f a) post) :
    Gives (as.mapM f) fun bs => bs.length = as.length ∧ ∀ b ∈ bs, post b := by
  induction as with
  | nil => exact .ok ⟨rfl, by simp⟩
  | cons a as ih =>
    obtain ⟨here, rest⟩ := List.forall_mem_cons.mp h
    rw [List.mapM_cons]
    refine here.bind fun b hb => (ih rest).bind fun bs hbs => .ok ?_
    exact ⟨by simp [hbs.1], List.forall_mem_cons.mpr ⟨hb, hbs.2⟩⟩

/-- A fold keeps what every step keeps. -/
theorem foldlM {step : β → α → Except ε β} {keeps : β → Prop} {as : List α}
    (h : ∀ a ∈ as, ∀ b, keeps b → Gives (step b a) keeps) :
    ∀ {b : β}, keeps b → Gives (as.foldlM step b) keeps := by
  induction as with
  | nil => exact fun hb => .ok hb
  | cons a as ih =>
    intro b hb
    obtain ⟨here, rest⟩ := List.forall_mem_cons.mp h
    rw [List.foldlM_cons]
    exact (here b hb).bind fun _ => ih rest

end Gives

end PseudoLang
