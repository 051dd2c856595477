import Mathlib

/-!
# What a computation that can stop comes to

`Meets err post x` is the postcondition of a computation in `Except`: its result
satisfies `post`, and if it stops the reason satisfies `err`.  `Meets.bind` is the rule
for one computation after another, with what the first one establishes in between;
`meets_foldlM` and `meets_mapM` are the rules for loops over a list.
-/

namespace Outcome

universe u

variable {ε α β : Type u} {err : ε → Prop}

/-- The result satisfies `post`, and the reason of a stop `err`. -/
inductive Meets (err : ε → Prop) (post : α → Prop) : Except ε α → Prop
  | ok {a : α} (h : post a) : Meets err post (.ok a)
  | error {e : ε} (h : err e) : Meets err post (.error e)

theorem Meets.of_ok {post : α → Prop} {x : Except ε α} (h : Meets err post x) {a : α}
    (hx : x = .ok a) : post a := by
  subst hx
  cases h with
  | ok ha => exact ha

theorem Meets.of_error {post : α → Prop} {x : Except ε α} (h : Meets err post x) {e : ε}
    (hx : x = .error e) : err e := by
  subst hx
  cases h with
  | error he => exact he

/-- A weaker postcondition. -/
theorem Meets.imp {post post' : α → Prop} {x : Except ε α} (h : Meets err post x)
    (hp : ∀ a, post a → post' a) : Meets err post' x := by
  cases h with
  | ok ha => exact .ok (hp _ ha)
  | error he => exact .error he

/-- **One computation after another.** -/
theorem Meets.bind {mid : α → Prop} {post : β → Prop} {x : Except ε α} {f : α → Except ε β}
    (hx : Meets err mid x) (hf : ∀ a, mid a → Meets err post (f a)) : Meets err post (x >>= f) := by
  cases hx with
  | ok ha => exact hf _ ha
  | error he => exact .error he

/-- A loop over a list keeps what each of its iterations keeps. -/
theorem meets_foldlM {post : β → Prop} {f : β → α → Except ε β}
    (h : ∀ b a, post b → Meets err post (f b a)) (l : List α) {b : β} (hb : post b) :
    Meets err post (l.foldlM f b) := by
  induction l generalizing b with
  | nil => exact .ok hb
  | cons a l ih =>
    rw [List.foldlM_cons]
    exact (h b a hb).bind fun b' hb' => ih hb'

theorem meets_mapM {post : α → Prop} {f : β → Except ε α} (h : ∀ b, Meets err post (f b))
    (l : List β) : Meets err (fun as => ∀ a ∈ as, post a) (l.mapM f) := by
  induction l with
  | nil => exact .ok nofun
  | cons b l ih =>
    rw [List.mapM_cons]
    refine (h b).bind fun a ha => ih.bind fun as has => .ok ?_
    intro a' ha'
    rcases List.mem_cons.mp ha' with rfl | hmem
    · exact ha
    · exact has a' hmem

end Outcome
