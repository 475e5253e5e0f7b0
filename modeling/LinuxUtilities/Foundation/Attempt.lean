import Mathlib.Tactic

/-! Computations that thread a state and may give up, and triples for them that say
exactly when they do so for lack of resources only. -/

def Attempt (σ α : Type) := σ → Option α × σ

namespace Attempt
variable {σ α β γ ε : Type}

instance : Monad (Attempt σ) where
  pure a := fun s => (some a, s)
  bind x f := fun s => match x s with
    | (some a, s) => f a s
    | (none, s) => (none, s)

/-- Give up after a last change of the state. -/
def fail (last : σ → σ) : Attempt σ α := fun s => (none, last s)

/-- A step that reports its success. -/
def require (step : σ → Bool × σ) (last : σ → σ) : Attempt σ Unit := fun s =>
  if (step s).1 then (some (), (step s).2) else (none, last (step s).2)

theorem bind_apply (x : Attempt σ α) (f : α → Attempt σ β) (s : σ) :
    (x >>= f) s = match x s with
      | (some a, s) => f a s
      | (none, s) => (none, s) := rfl

theorem pure_bind (a : α) (f : α → Attempt σ β) : pure a >>= f = f a := rfl

theorem bind_assoc (x : Attempt σ α) (f : α → Attempt σ β) (g : β → Attempt σ γ) :
    x >>= f >>= g = x >>= fun a => f a >>= g := by
  funext s
  simp only [bind_apply]
  obtain ⟨r, s₁⟩ := x s
  cases r <;> rfl

theorem bind_eq_some {x : Attempt σ α} {f : α → Attempt σ β} {s s' : σ} {b : β} :
    (x >>= f) s = (some b, s') ↔ ∃ a s₁, x s = (some a, s₁) ∧ f a s₁ = (some b, s') := by
  rw [bind_apply]
  obtain ⟨r, s₁⟩ := x s
  cases r with
  | none => simp
  | some a => simp

theorem require_eq_some {step : σ → Bool × σ} {last : σ → σ} {s s' : σ} {u : Unit} :
    require step last s = (some u, s') ↔ (step s).1 = true ∧ (step s).2 = s' := by
  unfold require
  split
  next h => simp [h]
  next h => simp [h]

/-- An observation of the state stays, and results satisfy `post`. -/
def Sound (obs : σ → γ) (x : Attempt σ α) (post : α → Prop) : Prop :=
  ∀ s, obs (x s).2 = obs s ∧ ∀ a, (x s).1 = some a → post a

/-- There is no result where `x` `fails`, results satisfy `post`, and with all resources
`granted` there is one elsewhere. -/
structure Meets (obs : σ → γ) (granted : Prop) (x : Attempt σ α) (fails : Prop)
    (post : α → Prop) : Prop where
  sound : Sound obs x fun a => ¬ fails ∧ post a
  total : granted → ¬ fails → ∀ s, (x s).1.isSome

section Sound
variable {obs : σ → γ} {x : Attempt σ α} {f : α → Attempt σ β} {post post' : α → Prop}
  {postB : β → Prop}

theorem Sound.result (hx : Sound obs x post) {s s' : σ} {a : α} (h : x s = (some a, s')) :
    obs s' = obs s ∧ post a := by
  have hs := hx s
  rw [h] at hs
  exact ⟨hs.1, hs.2 a rfl⟩

theorem Sound.imp (hx : Sound obs x post) (h : ∀ a, post a → post' a) : Sound obs x post' :=
  fun s => ⟨(hx s).1, fun a ha => h a ((hx s).2 a ha)⟩

theorem Sound.pure {a : α} (h : post a) : Sound obs (pure a : Attempt σ α) post := by
  intro s
  refine ⟨rfl, fun b hb => ?_⟩
  obtain rfl := Option.some.inj hb
  exact h

theorem Sound.fail {last : σ → σ} (hlast : ∀ s, obs (last s) = obs s) :
    Sound obs (Attempt.fail last : Attempt σ α) post := by
  intro s
  refine ⟨hlast s, fun a ha => ?_⟩
  change none = some a at ha
  contradiction

theorem Sound.require {step : σ → Bool × σ} {last : σ → σ} (hstep : ∀ s, obs (step s).2 = obs s)
    (hlast : ∀ s, obs (last s) = obs s) :
    Sound obs (Attempt.require step last) fun _ => True := by
  intro s
  refine ⟨?_, fun _ _ => trivial⟩
  unfold Attempt.require
  split
  · exact hstep s
  · exact (hlast _).trans (hstep s)

theorem Sound.bind (hx : Sound obs x post) (hf : ∀ a, post a → Sound obs (f a) postB) :
    Sound obs (x >>= f) postB := by
  intro s
  obtain ⟨hkeep, hpost⟩ := hx s
  rw [bind_apply]
  cases hxs : x s with
  | mk r s₁ =>
    rw [hxs] at hkeep hpost
    cases r with
    | none => exact ⟨hkeep, fun b hb => by contradiction⟩
    | some a =>
      obtain ⟨hkeep', hpost'⟩ := hf a (hpost a rfl) s₁
      exact ⟨hkeep'.trans hkeep, hpost'⟩

/-- The invariant of a loop is about the part that is done. -/
theorem Sound.foldlM {step : β → ε → Attempt σ β} (inv : List ε → β → Prop) {l : List ε}
    (hstep : ∀ pre e post b, l = pre ++ e :: post → inv pre b →
      Sound obs (step b e) (inv (pre ++ [e])))
    {b : β} (hb : inv [] b) : Sound obs (l.foldlM step b) (inv l) := by
  suffices h : ∀ post pre b, l = pre ++ post → inv pre b →
      Sound obs (post.foldlM step b) (inv l) from h l [] b rfl hb
  intro post
  induction post with
  | nil =>
    intro pre b hl hinv
    rw [List.append_nil] at hl
    rw [hl]
    exact Sound.pure hinv
  | cons e post ih =>
    intro pre b hl hinv
    rw [List.foldlM_cons]
    exact (hstep pre e post b hl hinv).bind fun b' hb' => ih (pre ++ [e]) b' (by rw [hl]; simp) hb'

end Sound

section Meets
variable {obs : σ → γ} {granted fails fails' : Prop} {x : Attempt σ α} {f : α → Attempt σ β}
  {post post' : α → Prop} {postB : β → Prop}

theorem Meets.pure {a : α} (hok : ¬ fails) (h : post a) :
    Meets obs granted (pure a : Attempt σ α) fails post where
  sound := Sound.pure ⟨hok, h⟩
  total _ _ _ := rfl

theorem Meets.fail {last : σ → σ} (hfails : fails) (hlast : ∀ s, obs (last s) = obs s) :
    Meets obs granted (Attempt.fail last : Attempt σ α) fails post where
  sound := Sound.fail hlast
  total _ h := absurd hfails h

/-- A resource that is granted is no reason to fail. -/
theorem Meets.require {step : σ → Bool × σ} {last : σ → σ} (hstep : ∀ s, obs (step s).2 = obs s)
    (hlast : ∀ s, obs (last s) = obs s) (hgranted : granted → ∀ s, (step s).1 = true) :
    Meets obs granted (Attempt.require step last) False fun _ => True where
  sound := (Sound.require hstep hlast).imp fun _ _ => ⟨not_false, trivial⟩
  total hg _ s := by
    unfold Attempt.require
    rw [if_pos (hgranted hg s)]
    rfl

theorem Meets.bind (hx : Meets obs granted x fails post)
    (hf : ∀ a, post a → Meets obs granted (f a) fails' postB) :
    Meets obs granted (x >>= f) (fails ∨ fails') postB where
  sound := hx.sound.bind fun a ha => (hf a ha.2).sound.imp fun b hb =>
    ⟨not_or.mpr ⟨ha.1, hb.1⟩, hb.2⟩
  total hg hok s := by
    rw [not_or] at hok
    have hsome := hx.total hg hok.1 s
    have hpost := (hx.sound s).2
    rw [bind_apply]
    cases hxs : x s with
    | mk r s₁ =>
      rw [hxs] at hsome hpost
      cases r with
      | none => contradiction
      | some a => exact (hf a (hpost a rfl).2).total hg hok.2 s₁

theorem Meets.congr (h : Meets obs granted x fails post) (hfails : fails ↔ fails')
    (hpost : ¬ fails → ∀ a, post a → post' a) : Meets obs granted x fails' post' where
  sound := h.sound.imp fun a ha => ⟨mt hfails.mpr ha.1, hpost ha.1 a ha.2⟩
  total hg hok := h.total hg (mt hfails.mp hok)

theorem Meets.of_iff (h : Meets obs granted x fails post) (hfails : fails ↔ fails') :
    Meets obs granted x fails' post :=
  h.congr hfails fun _ _ => id

theorem Meets.bind_iff (rest : Prop) (hx : Meets obs granted x fails post)
    (hf : ∀ a, post a → Meets obs granted (f a) rest postB) (hfails : fails ∨ rest ↔ fails') :
    Meets obs granted (x >>= f) fails' postB :=
  (hx.bind hf).of_iff hfails

/-- A step that never fails of itself, before the rest. -/
theorem Meets.andThen (hx : Meets obs granted x False post)
    (hf : ∀ a, post a → Meets obs granted (f a) fails' postB) :
    Meets obs granted (x >>= f) fails' postB :=
  hx.bind_iff fails' hf (by rw [false_or])

/-- A loop fails when one of its steps does. -/
theorem Meets.foldlM {step : β → ε → Attempt σ β} {bad : ε → Prop} (inv : List ε → β → Prop)
    {l : List ε} (hstep : ∀ pre e post b, l = pre ++ e :: post → inv pre b →
      Meets obs granted (step b e) (bad e) (inv (pre ++ [e])))
    {b : β} (hb : inv [] b) : Meets obs granted (l.foldlM step b) (∃ e ∈ l, bad e) (inv l) := by
  suffices h : ∀ post pre b, l = pre ++ post → inv pre b →
      Meets obs granted (post.foldlM step b) (∃ e ∈ post, bad e) (inv l) from h l [] b rfl hb
  intro post
  induction post with
  | nil =>
    intro pre b hl hinv
    rw [List.append_nil] at hl
    rw [hl]
    exact Meets.pure (by simp) hinv
  | cons e post ih =>
    intro pre b hl hinv
    rw [List.foldlM_cons]
    have hrest := fun b' hb' => ih (pre ++ [e]) b' (by rw [hl]; simp) hb'
    exact ((hstep pre e post b hl hinv).bind hrest).of_iff (by simp)

end Meets

end Attempt
