import Mathlib.Data.List.Basic

/-! # What happened since

Histories are lists, newest event first.  `Since P Q h`: an event of `h` satisfies `P`, and no newer
one satisfies `Q`.  `Extends ok h h'`: the history `h` was continued to `h'` by events that satisfy
`ok`.

* `Since.continued`: a continuation without `Q` keeps it.
* `Since.trans`: what happened after the last `S`, with no `C` since that `S`, happened with no `C`
  since.
* `Since.of_filter`: a part of a history that has all the events of `Q`. -/

variable {ε : Type}

/-- An event satisfies `P`, and no newer one `Q`. -/
def Since (P Q : ε → Prop) : List ε → Prop
  | [] => False
  | ev :: h => P ev ∨ (¬ Q ev ∧ Since P Q h)

/-- The history was continued by events that satisfy `ok`. -/
def Extends (ok : ε → Prop) (h h' : List ε) : Prop := ∃ new, h' = new ++ h ∧ ∀ ev ∈ new, ok ev

namespace Extends
variable {ok : ε → Prop} {h h' h'' : List ε} {ev : ε}

theorem refl (ok : ε → Prop) (h : List ε) : Extends ok h h := ⟨[], rfl, by simp⟩

theorem single (hev : ok ev) : Extends ok h (ev :: h) := ⟨[ev], rfl, by simpa using hev⟩

theorem trans (h₁ : Extends ok h h') (h₂ : Extends ok h' h'') : Extends ok h h'' := by
  obtain ⟨new, rfl, hnew⟩ := h₁
  obtain ⟨new', rfl, hnew'⟩ := h₂
  refine ⟨new' ++ new, by simp, fun ev hev => ?_⟩
  rcases List.mem_append.mp hev with hev | hev
  · exact hnew' ev hev
  · exact hnew ev hev

theorem suffix (hx : Extends ok h h') : h <:+ h' := by
  obtain ⟨new, rfl, -⟩ := hx
  exact List.suffix_append new h

theorem subset (hx : Extends ok h h') : h ⊆ h' := hx.suffix.subset

theorem mono {ok' : ε → Prop} (hok : ∀ ev, ok ev → ok' ev) (hx : Extends ok h h') :
    Extends ok' h h' := by
  obtain ⟨new, rfl, hnew⟩ := hx
  exact ⟨new, rfl, fun ev hev => hok ev (hnew ev hev)⟩

end Extends

namespace Since
variable {P P' Q Q' S C : ε → Prop} {ev : ε} {h h' : List ε}

instance decidable [DecidablePred P] [DecidablePred Q] : (h : List ε) → Decidable (Since P Q h)
  | [] => inferInstanceAs (Decidable False)
  | ev :: h =>
    have := decidable h
    inferInstanceAs (Decidable (P ev ∨ (¬ Q ev ∧ Since P Q h)))

theorem here (hP : P ev) : Since P Q (ev :: h) := Or.inl hP

theorem cons (hQ : ¬ Q ev) (hs : Since P Q h) : Since P Q (ev :: h) := Or.inr ⟨hQ, hs⟩

theorem mono_right (hQ : ∀ ev, Q' ev → Q ev) (hs : Since P Q h) : Since P Q' h := by
  induction h with
  | nil => exact hs
  | cons ev h ih => exact Or.imp_right (And.imp (fun hn hQ' => hn (hQ ev hQ')) ih) hs

theorem continued (hx : Extends (fun ev => ¬ Q ev) h h') (hs : Since P Q h) : Since P Q h' := by
  obtain ⟨new, rfl, hnew⟩ := hx
  induction new with
  | nil => exact hs
  | cons ev new ih =>
    exact cons (hnew ev List.mem_cons_self) (ih fun x hx => hnew x (List.mem_cons_of_mem _ hx))

theorem exists_mem (hs : Since P Q h) : ∃ ev ∈ h, P ev := by
  induction h with
  | nil => exact hs.elim
  | cons ev h ih =>
    rcases hs with hP | ⟨-, hs⟩
    · exact ⟨ev, List.mem_cons_self, hP⟩
    · obtain ⟨ev', hev', hP⟩ := ih hs
      exact ⟨ev', List.mem_cons_of_mem _ hev', hP⟩

/-- What happened after the last `S`, with no `C` since that `S`, happened with no `C` since. -/
theorem trans (hs : Since P S h) (hc : ¬ Since C S h) : Since P C h := by
  induction h with
  | nil => exact hs
  | cons ev h ih =>
    rcases hs with hP | ⟨hS, hs⟩
    · exact here hP
    · have hC : ¬ C ev := fun hC => hc (here hC)
      exact cons hC (ih hs (fun h' => hc (cons hS h')))

/-- Not both ways. -/
theorem asymm (hPQ : ∀ ev, P ev → ¬ Q ev) (hs : Since P Q h) : ¬ Since Q P h := by
  induction h with
  | nil => exact hs.elim
  | cons ev h ih =>
    rintro (hQ | ⟨hP, hs'⟩)
    · rcases hs with hP | ⟨hQ', -⟩
      · exact hPQ ev hP hQ
      · exact hQ' hQ
    · rcases hs with hP' | ⟨-, hs⟩
      · exact hP hP'
      · exact ih hs hs'

/-- The rest of the history has no event of `Q`. -/
theorem of_filter {keep : ε → Bool} (hQ : ∀ ev, Q ev → keep ev = true)
    (hs : Since P Q (h.filter keep)) : Since P Q h := by
  induction h with
  | nil => exact hs
  | cons ev h ih =>
    by_cases hk : keep ev = true
    · rw [List.filter_cons_of_pos hk] at hs
      exact Or.imp_right (And.imp_right ih) hs
    · rw [List.filter_cons_of_neg hk] at hs
      exact cons (fun h' => hk (hQ ev h')) (ih hs)

end Since
