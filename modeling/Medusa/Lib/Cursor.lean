import Mathlib.Data.List.Basic

/-! # Reading and writing a buffer by position

A decoder written with a buffer and a position, against the same decoder written on what is left of the
buffer.  `stuck` is the error of an access outside the buffer, or of a loop that has no rounds left.

* `Agrees`: a read that ends at the position where the rest begins, or fails where the other one does
  and is not stuck.  `Agrees.bind` composes reads.
* `Local`: taking something off the front does not look at what follows it.
* `run`: take pieces off the front until nothing is left.  `run_append`: **a longer buffer goes on with
  the state after the shorter one.**
* `Writes`: a writer that fills a buffer from its end puts its bytes right before a position, whatever was
  there, and nothing else.  `Writes.comp`: what is written second stands first. -/

namespace Cursor

variable {β ε σ α γ : Type}

theorem ok_bind (a : α) (f : α → Except ε γ) : (Except.ok a >>= f) = f a := rfl

theorem error_bind (e : ε) (f : α → Except ε γ) : (Except.error e >>= f) = .error e := rfl

theorem bind_eq_ok {x : Except ε α} {f : α → Except ε γ} {c : γ} (h : x >>= f = .ok c) :
    ∃ a, x = .ok a ∧ f a = .ok c := by
  cases x with
  | ok a => exact ⟨a, rfl, h⟩
  | error e => cases h

theorem bind_ne_error {x : Except ε α} {f : α → Except ε γ} {e : ε} (hx : x ≠ .error e)
    (hf : ∀ a, f a ≠ .error e) : x >>= f ≠ .error e := by
  cases x with
  | ok a => exact hf a
  | error e' =>
    intro he
    rw [error_bind, Except.error.injEq] at he
    exact hx (congrArg _ he)

/-! ### Positions -/

/-- The outcome of a read at some position of the buffer `d`, and what taking off the front gives. -/
inductive Agrees (stuck : ε) (d : List β) : Except ε (α × ℕ) → Option (α × List β) → Prop
  | ok (a : α) {rest : List β} (h : rest <:+ d) :
      Agrees stuck d (.ok (a, d.length - rest.length)) (some (a, rest))
  | error {e : ε} (h : e ≠ stuck) : Agrees stuck d (.error e) none

section positions
variable {stuck : ε} {d rest : List β}

/-- The rest begins at its position. -/
theorem drop_of_suffix (h : rest <:+ d) : d.drop (d.length - rest.length) = rest := by
  obtain ⟨pre, rfl⟩ := h
  simp

/-- The position of a rest is not behind the buffer. -/
theorem length_of_suffix (h : rest <:+ d) : d.length - rest.length + rest.length = d.length :=
  Nat.sub_add_cancel h.length_le

theorem Agrees.cases {x : Except ε (α × ℕ)} {y : Option (α × List β)} (h : Agrees stuck d x y) :
    (∃ a rest, rest <:+ d ∧ x = .ok (a, d.length - rest.length) ∧ y = some (a, rest)) ∨
      ∃ e, e ≠ stuck ∧ x = .error e ∧ y = none := by
  cases h with
  | ok a hrest => exact Or.inl ⟨a, _, hrest, rfl, rfl⟩
  | error he => exact Or.inr ⟨_, he, rfl, rfl⟩

theorem Agrees.bind {x : Except ε (α × ℕ)} {y : Option (α × List β)}
    {f : α × ℕ → Except ε (γ × ℕ)} {g : α × List β → Option (γ × List β)} (h : Agrees stuck d x y)
    (hf : ∀ a rest, y = some (a, rest) → rest <:+ d →
      Agrees stuck d (f (a, d.length - rest.length)) (g (a, rest))) :
    Agrees stuck d (x >>= f) (y >>= g) := by
  cases h with
  | ok a hrest => exact hf a _ rfl hrest
  | error he => exact .error he

/-- The result may be computed from what was read. -/
theorem Agrees.map {x : Except ε (α × ℕ)} {y : Option (α × List β)} (h : Agrees stuck d x y)
    (f : α → γ) : Agrees stuck d (x >>= fun r => pure (f r.1, r.2)) (y >>= fun r => pure (f r.1, r.2)) := by
  cases h with
  | ok a hrest => exact .ok (f a) hrest
  | error he => exact .error he

end positions

/-! ### Pieces off the front -/

/-- Something is taken off the front, and what follows it is not looked at. -/
def Local (take : List β → Option (α × List β)) : Prop :=
  ∀ s a rest, take s = some (a, rest) → ∃ u, u ≠ [] ∧ s = u ++ rest ∧ ∀ more, take (u ++ more) = some (a, more)

section locality
variable {take : List β → Option (α × List β)} {s rest : List β} {a : α}

/-- There is less left. -/
theorem Local.length_lt (h : Local take) (hs : take s = some (a, rest)) : rest.length < s.length := by
  obtain ⟨u, hu, rfl, -⟩ := h s a rest hs
  have hpos := List.length_pos_iff.mpr hu
  rw [List.length_append]
  omega

/-- A longer buffer has more left. -/
theorem Local.append (h : Local take) (hs : take s = some (a, rest)) (more : List β) :
    take (s ++ more) = some (a, rest ++ more) := by
  obtain ⟨u, -, rfl, hmore⟩ := h s a rest hs
  rw [List.append_assoc]
  exact hmore (rest ++ more)

/-- The second step may take nothing. -/
theorem Local.bind {next : α × List β → Option (γ × List β)} (h : Local take)
    (hnext : ∀ a s c rest, next (a, s) = some (c, rest) →
      ∃ u, s = u ++ rest ∧ ∀ more, next (a, u ++ more) = some (c, more)) : Local fun s => take s >>= next := by
  intro s c rest hs
  obtain ⟨⟨a, t⟩, hr, hc⟩ := Option.bind_eq_some_iff.mp hs
  obtain ⟨u, hu, rfl, hmore⟩ := h s a t hr
  obtain ⟨u', rfl, hmore'⟩ := hnext a t c rest hc
  refine ⟨u ++ u', by simp [hu], (List.append_assoc _ _ _).symm, fun more => ?_⟩
  dsimp only
  rw [List.append_assoc, hmore, Option.bind_eq_bind, Option.bind_some]
  exact hmore' more

/-- The result may be computed from what was taken. -/
theorem Local.map (h : Local take) (f : α → γ) : Local fun s => take s >>= fun r => pure (f r.1, r.2) := by
  refine h.bind fun a s c rest hs => ?_
  cases hs
  exact ⟨[], rfl, fun more => rfl⟩

end locality

/-- Take pieces off the front, at most `fuel` of them, until nothing is left. -/
def run (step : σ → List β → Option (σ × List β)) : ℕ → List β → σ → Option σ
  | _, [], s => some s
  | 0, _ :: _, _ => none
  | fuel + 1, b :: bs, s => (step s (b :: bs)).bind fun r => run step fuel r.2 r.1

section run
variable {step : σ → List β → Option (σ × List β)}

theorem run_nil (fuel : ℕ) (s : σ) : run step fuel [] s = some s := by cases fuel <;> rfl

/-- The next piece. -/
theorem run_step {bs rest : List β} {s s' : σ} (h : step s bs = some (s', rest)) (hbs : bs ≠ [])
    (fuel : ℕ) : run step (fuel + 1) bs s = run step fuel rest s' := by
  cases bs with
  | nil => exact absurd rfl hbs
  | cons b bs => rw [run, h, Option.bind_some]

theorem run_none {bs : List β} {s : σ} (h : step s bs = none) (hbs : bs ≠ []) (fuel : ℕ) :
    run step fuel bs s = none := by
  cases bs with
  | nil => exact absurd rfl hbs
  | cons b bs =>
    cases fuel with
    | zero => rfl
    | succ fuel => rw [run, h, Option.bind_none]

/-- What every step keeps, of the state and of what is left. -/
theorem run_invariant {P : σ → List β → Prop}
    (hP : ∀ {s s' bs rest}, step s bs = some (s', rest) → P s bs → P s' rest) {fuel : ℕ} {bs : List β} {s s' : σ}
    (h : run step fuel bs s = some s') (hs : P s bs) : P s' [] := by
  induction fuel generalizing bs s with
  | zero =>
    cases bs with
    | nil =>
      cases h
      exact hs
    | cons b bs => cases h
  | succ fuel ih =>
    cases bs with
    | nil =>
      cases h
      exact hs
    | cons b bs =>
      obtain ⟨r, hr, hrest⟩ := Option.bind_eq_some_iff.mp h
      exact ih hrest (hP hr hs)

variable (hstep : ∀ s, Local (step s))
include hstep

/-- As many rounds as the buffer is long are enough. -/
theorem run_fuel {fuel fuel' : ℕ} {bs : List β} (hfuel : bs.length ≤ fuel) (hfuel' : bs.length ≤ fuel')
    (s : σ) : run step fuel bs s = run step fuel' bs s := by
  induction fuel generalizing fuel' bs s with
  | zero =>
    obtain rfl := List.eq_nil_of_length_eq_zero (Nat.le_zero.mp hfuel)
    rw [run_nil, run_nil]
  | succ fuel ih =>
    by_cases hbs : bs = []
    · subst hbs
      rw [run_nil, run_nil]
    · obtain ⟨k, rfl⟩ : ∃ k, fuel' = k + 1 :=
        ⟨fuel' - 1, by have := List.length_pos_iff.mpr hbs; omega⟩
      cases h : step s bs with
      | none => rw [run_none h hbs, run_none h hbs]
      | some r =>
        have hlt := (hstep s).length_lt h
        rw [run_step h hbs, run_step h hbs]
        exact ih (by omega) (by omega) r.1

/-- **A longer buffer goes on with the state after the shorter one.** -/
theorem run_append {fuel : ℕ} {as bs : List β} {s s' : σ} (h : run step fuel as s = some s')
    {fuel' : ℕ} (hfuel : (as ++ bs).length ≤ fuel') :
    run step fuel' (as ++ bs) s = run step bs.length bs s' := by
  induction fuel generalizing as s fuel' with
  | zero =>
    cases as with
    | nil =>
      cases h
      exact run_fuel hstep hfuel (Nat.le_refl _) _
    | cons a as => cases h
  | succ fuel ih =>
    cases as with
    | nil =>
      cases h
      exact run_fuel hstep hfuel (Nat.le_refl _) _
    | cons a as =>
      rw [run] at h
      obtain ⟨r, hr, hrest⟩ := Option.bind_eq_some_iff.mp h
      have hlt := (hstep s).length_lt hr
      rw [List.length_append] at hfuel
      obtain ⟨k, rfl⟩ : ∃ k, fuel' = k + 1 := ⟨fuel' - 1, by simp only [List.length_cons] at hfuel; omega⟩
      rw [run_step ((hstep s).append hr bs) (by simp)]
      exact ih hrest (by rw [List.length_append]; omega)

end run

/-! ### Writing from the end -/

/-- In a buffer with room for `bytes` before the position, `write` puts them there. -/
def Writes (write : List β → ℕ → Except ε (List β × ℕ)) (bytes : List β) : Prop :=
  ∀ pre old post : List β, old.length = bytes.length →
    write (pre ++ old ++ post) (pre.length + old.length) = .ok (pre ++ bytes ++ post, pre.length)

theorem Writes.nil : Writes (fun d i => (.ok (d, i) : Except ε (List β × ℕ))) [] := by
  intro pre old post hold
  obtain rfl := List.eq_nil_of_length_eq_zero hold
  simp

/-- What is written second stands first. -/
theorem Writes.comp {first second : List β → ℕ → Except ε (List β × ℕ)} {as bs : List β}
    (hfirst : Writes first bs) (hsecond : Writes second as) :
    Writes (fun d i => first d i >>= fun r => second r.1 r.2) (as ++ bs) := by
  intro pre old post hold
  rw [List.length_append] at hold
  have hsplit : old = old.take as.length ++ old.drop as.length := (List.take_append_drop _ _).symm
  have htake : (old.take as.length).length = as.length := by rw [List.length_take]; omega
  have hdrop : (old.drop as.length).length = bs.length := by rw [List.length_drop]; omega
  have h₁ := hfirst (pre ++ old.take as.length) (old.drop as.length) post hdrop
  have h₂ := hsecond pre (old.take as.length) (bs ++ post) htake
  simp only [List.append_assoc, List.length_append] at h₁ h₂ ⊢
  rw [← List.append_assoc (old.take as.length), ← hsplit, Nat.add_assoc, htake, hdrop, ← hold] at h₁
  rw [htake] at h₂
  rw [h₁]
  exact h₂

end Cursor
