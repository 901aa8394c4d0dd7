/-!
Steps that change a state and may be refused, and what is known of how they end. Claims about steps
of a kind are made by the reasons and states that are possible when one of them is refused.
-/
namespace OnePass

/-- The step succeeds with such a result and state, or is refused with such a reason and state. -/
structure Settles {ε σ α : Type} (fail : ε → σ → Prop) (m : ExceptT ε (StateM σ) α) (s : σ)
    (post : α → σ → Prop) : Prop where
  ends : ∀ a s', m.run.run s = (.ok a, s') → post a s'
  refused : ∀ e s', m.run.run s = (.error e, s') → fail e s'

namespace Settles

variable {ε σ α β : Type} {fail : ε → σ → Prop} {m : ExceptT ε (StateM σ) α} {s : σ}
  {post : α → σ → Prop} {Q post' : α → σ → Prop}

theorem of_pure {a : α} (h : post a s) : Settles fail (pure a) s post := by
  refine ⟨fun b s' hr => ?_, fun b s' hr => ?_⟩ <;> cases hr
  exact h

theorem of_throw {e : ε} (h : fail e s) : Settles fail (throw e) s post := by
  refine ⟨fun a s' hr => ?_, fun e' s' hr => ?_⟩ <;> cases hr
  exact h

theorem of_run {a : α} {s' : σ} (hrun : m.run.run s = (.ok a, s')) (h : post a s') :
    Settles fail m s post := by
  refine ⟨fun _ _ h' => ?_, fun _ _ h' => ?_⟩ <;> cases hrun.symm.trans h'
  exact h

theorem run_run_bind (m : ExceptT ε (StateM σ) α) (k : α → ExceptT ε (StateM σ) β) (s : σ) :
    (m >>= k).run.run s = match m.run.run s with
      | (.ok a, s') => (k a).run.run s'
      | (.error e, s') => (.error e, s') := by
  simp only [ExceptT.run_bind, StateT.run_bind]
  rcases m.run.run s with ⟨_ | _, _⟩ <;> rfl

theorem bind {k : α → ExceptT ε (StateM σ) β} {post : β → σ → Prop} (hm : Settles fail m s Q)
    (hk : ∀ a s', Q a s' → Settles fail (k a) s' post) : Settles fail (m >>= k) s post := by
  rcases hr : m.run.run s with ⟨e | a, s₁⟩
  · refine ⟨fun y s' h => ?_, fun e' s' h => ?_⟩ <;> rw [run_run_bind, hr] at h <;> cases h
    exact hm.refused _ _ hr
  · have hk' := hk a s₁ (hm.ends a s₁ hr)
    refine ⟨fun y s' h => ?_, fun e' s' h => ?_⟩ <;> rw [run_run_bind, hr] at h
    · exact hk'.ends y s' h
    · exact hk'.refused e' s' h

/-- A step that only looks at the state. -/
theorem look {k : α → ExceptT ε (StateM σ) β} {post : β → σ → Prop} {P : α → Prop}
    (hm : Settles fail m s fun a s' => s' = s ∧ P a) (hk : ∀ a, P a → Settles fail (k a) s post) :
    Settles fail (m >>= k) s post := by
  refine hm.bind ?_
  rintro a _ ⟨rfl, ha⟩
  exact hk a ha

theorem get_bind {k : σ → ExceptT ε (StateM σ) α} (h : Settles fail (k s) s post) :
    Settles fail (get >>= k) s post :=
  ⟨fun a s' hr => h.ends a s' hr, fun e s' hr => h.refused e s' hr⟩

variable {f : σ → σ}

theorem of_modify {post : Unit → σ → Prop} (h : post () (f s)) :
    Settles fail (modify f) s post := by
  refine ⟨fun a s' hr => ?_, fun e s' hr => ?_⟩ <;> cases hr
  exact h

variable {k : Unit → ExceptT ε (StateM σ) α}

theorem modify_bind (h : Settles fail (k ()) (f s) post) : Settles fail (modify f >>= k) s post :=
  ⟨fun a s' hr => h.ends a s' hr, fun e s' hr => h.refused e s' hr⟩

theorem mono (h : Settles fail m s post) (hpost : ∀ a s', post a s' → post' a s') :
    Settles fail m s post' :=
  ⟨fun a s' hr => hpost a s' (h.ends a s' hr), h.refused⟩

variable {p : Prop}

theorem ite [Decidable p] {m' : ExceptT ε (StateM σ) α} (hm : p → Settles fail m s post)
    (hm' : ¬p → Settles fail m' s post) : Settles fail (if p then m else m') s post := by
  split
  · next hp => exact hm hp
  · next hp => exact hm' hp

/-- A step that is left out unless the condition holds. -/
theorem when [Decidable p] {m : ExceptT ε (StateM σ) Unit} {Q : σ → Prop}
    (hm : p → Settles fail m s fun _ => Q) (hm' : ¬p → Q s)
    (hk : ∀ s', Q s' → Settles fail (k ()) s' post) :
    Settles fail (if p then m >>= k else k ()) s post :=
  ite (fun hp => (hm hp).bind fun _ s' => hk s') fun hp => hk s (hm' hp)

/-- A step that is refused if the condition holds. -/
theorem guard [Decidable p] {e : ε} (he : fail e s) (hk : ¬p → Settles fail (k ()) s post) :
    Settles fail (if p then throw e >>= k else k ()) s post :=
  ite (fun _ => .bind (Q := fun _ _ => False) (of_throw he) fun _ _ => False.elim) hk

end Settles

end OnePass
