/-!
# Sessions

A session puts requests to something with a state, one after the other.  Two of them that start
related and answer each request alike, and stay related, answer a whole session alike.
-/

namespace Precedence

variable {Request Answer S T : Type}

/-- The answers to some requests, and what is left of the one that gave them. -/
def answers (answer : Request → S → Answer × S) : List Request → S → List Answer × S
  | [], state => ([], state)
  | request :: requests, state =>
      let (first, state) := answer request state
      let (rest, state) := answers answer requests state
      (first :: rest, state)

theorem answers_append (answer : Request → S → Answer × S) (before after : List Request)
    (state : S) :
    answers answer (before ++ after) state =
      ((answers answer before state).1 ++
          (answers answer after (answers answer before state).2).1,
        (answers answer after (answers answer before state).2).2) := by
  induction before generalizing state with
  | nil => rfl
  | cons request before ih =>
      simp only [List.cons_append, answers]
      rw [ih]

theorem length_answers (answer : Request → S → Answer × S) (requests : List Request) (state : S) :
    (answers answer requests state).1.length = requests.length := by
  induction requests generalizing state with
  | nil => rfl
  | cons request requests ih => exact congrArg (· + 1) (ih _)

/-- Answers stay alike as long as single answers are. -/
theorem answers_alike {left : Request → S → Answer × S} {right : Request → T → Answer × T}
    {R : S → T → Prop}
    (hanswer : ∀ request s t, R s t →
      (left request s).1 = (right request t).1 ∧ R (left request s).2 (right request t).2)
    (requests : List Request) {s : S} {t : T} (hstart : R s t) :
    (answers left requests s).1 = (answers right requests t).1 ∧
      R (answers left requests s).2 (answers right requests t).2 := by
  induction requests generalizing s t with
  | nil => exact ⟨rfl, hstart⟩
  | cons request requests ih =>
      obtain ⟨hfirst, hnext⟩ := hanswer request s t hstart
      obtain ⟨hrest, hlast⟩ := ih hnext
      simp only [answers]
      rw [hfirst, hrest]
      exact ⟨rfl, hlast⟩

end Precedence
