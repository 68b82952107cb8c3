import ReactiveView.Proofs.Hook.Lasting

namespace ReactiveView

variable {ω : Type}

/-- Of two schedulers the second one is what became of the first without a request being taken: a
pass is pending if it was or if the count of requests has grown. -/
structure Scheduler.Asked (a b : Scheduler ω) : Prop where
  count_le : a.rendersScheduled ≤ b.rendersScheduled
  pending_iff : b.renderPending = true ↔
    a.renderPending = true ∨ a.rendersScheduled < b.rendersScheduled

namespace Scheduler

theorem Asked.of_eq {a b : Scheduler ω} (hp : b.renderPending = a.renderPending)
    (hc : b.rendersScheduled = a.rendersScheduled) : Asked a b where
  count_le := Nat.le_of_eq hc.symm
  pending_iff := by simp [hp, hc]

theorem Asked.trans {a b c : Scheduler ω} (h : Asked a b) (h' : Asked b c) : Asked a c where
  count_le := Nat.le_trans h.count_le h'.count_le
  pending_iff := by
    have hab := h.count_le
    have hbc := h'.count_le
    rw [h'.pending_iff, h.pending_iff, or_assoc]
    apply or_congr_right
    omega

theorem asked_request (s : Scheduler ω) : Asked s s.request.2 := by
  unfold request
  by_cases hp : s.renderPending = true
  · rw [if_pos hp]
    exact .of_eq rfl rfl
  · rw [if_neg hp]
    exact ⟨Nat.le_succ _, by simp⟩

end Scheduler

theorem Store.lasting_asked :
    Store.Lasting fun s s' : Store ω => s.scheduler.Asked s'.scheduler where
  refl := fun _ => .of_eq rfl rfl
  trans := fun h h' => h.trans h'
  alter := fun _ _ => .of_eq rfl rfl
  write := fun _ _ _ => .of_eq rfl rfl
  request := fun s => s.scheduler.asked_request
  defer := fun _ _ => .of_eq rfl rfl
  deferAsync := fun _ _ => .of_eq rfl rfl

theorem Scope.lasting_asked :
    Scope.Lasting fun s s' : Scope ω => s.store.scheduler.Asked s'.store.scheduler where
  refl := fun _ => .of_eq rfl rfl
  trans := fun h h' => h.trans h'
  slot := fun _ _ => .of_eq rfl rfl
  useEffect := fun s deps effect => by
    unfold Scope.useEffect
    dsimp only
    split <;> exact .of_eq rfl rfl
  useEffectAsync := fun s deps effect => by
    unfold Scope.useEffectAsync
    dsimp only
    split
    · split <;> rename_i h <;> obtain ⟨-, rfl⟩ := Prod.mk.inj h <;> exact .of_eq rfl rfl
    · exact .of_eq rfl rfl
  makeHandler := fun _ _ => .of_eq rfl rfl
  act := fun s program => Store.lasting_asked.run program s.store

end ReactiveView
