import Jyyos.Mosaic.Reference

/-!
# The operations of the reference operating system

What each operation does when it succeeds, for the proofs about steps and runs.
-/

namespace Jyyos.Mosaic

variable {V F S H : Type} [PyVal V] {ref : Reference V F S H}

theorem Reference.switchTo_of_some (ref : Reference V F S H) {tid : ℕ} {th : Thread V F S}
    (hth : ref.threads[tid]? = some th) :
    ref.switchTo tid = some ({ ref with current := tid, newfork := ref.newfork.erase tid },
      if tid ∈ ref.newfork then PyVal.ofNat 0 else PyVal.none) := by
  unfold Reference.switchTo
  rw [hth]
  by_cases hmem : tid ∈ ref.newfork
  · simp only [if_pos hmem]
    rfl
  · simp only [if_neg hmem, Finset.erase_eq_of_notMem hmem]
    rfl

theorem Reference.fork_of_some {th : Thread V F S} {h₀ : H}
    (hth : ref.threads[ref.current]? = some th) (hh : ref.heaps[th.heap]? = some h₀) :
    ref.fork = some ({ ref with
      threads := ref.threads ++ [⟨th.context, ref.heaps.length⟩]
      heaps := ref.heaps ++ [h₀]
      newfork := insert ref.threads.length ref.newfork },
      PyVal.ofNat (1000 + (ref.threads.length + 1))) := by
  unfold Reference.fork
  rw [hth]
  show (ref.heaps[th.heap]? >>= _) = _
  rw [hh]
  show some (({ ref with
    threads := _, heaps := _, newfork := insert ((ref.threads ++ [_]).length - 1) _ } :
      Reference V F S H), PyVal.ofNat (1000 + (ref.threads ++ [_]).length)) = _
  rw [List.length_append, List.length_singleton, Nat.add_sub_cancel]

theorem Reference.switchTo_cases {tid : ℕ} {r : Reference V F S H × V}
    (h : ref.switchTo tid = some r) : ∃ th, ref.threads[tid]? = some th ∧
      r = ({ ref with current := tid, newfork := ref.newfork.erase tid },
        if tid ∈ ref.newfork then PyVal.ofNat 0 else PyVal.none) := by
  obtain ⟨th, hth, -⟩ := Option.bind_eq_some_iff.mp h
  rw [ref.switchTo_of_some hth] at h
  exact ⟨th, hth, (Option.some.inj h).symm⟩

theorem Reference.fork_cases {r : Reference V F S H × V} (h : ref.fork = some r) :
    ∃ th h₀, ref.threads[ref.current]? = some th ∧ ref.heaps[th.heap]? = some h₀ ∧
      r = ({ ref with
        threads := ref.threads ++ [⟨th.context, ref.heaps.length⟩]
        heaps := ref.heaps ++ [h₀]
        newfork := insert ref.threads.length ref.newfork },
        PyVal.ofNat (1000 + (ref.threads.length + 1))) := by
  obtain ⟨th, hth, h'⟩ := Option.bind_eq_some_iff.mp h
  obtain ⟨h₀, hh₀, -⟩ := Option.bind_eq_some_iff.mp h'
  rw [fork_of_some hth hh₀] at h
  exact ⟨th, h₀, hth, hh₀, (Option.some.inj h).symm⟩

variable [DecidableEq V] (app : App V F S H)

/-- What `send` does: nothing to a finished generator, and otherwise the thread code runs. -/
theorem Reference.send_cases {res : V} {r : Reference V F S H × Option (Syscall V F)}
    (h : ref.send app res = some r) : ∃ th, ref.threads[ref.current]? = some th ∧
      ((th.context = .finished ∧ r = (ref, none)) ∨
        ∃ frame h₀, th.context.frame? = some frame ∧ ref.heaps[th.heap]? = some h₀ ∧
          ((∃ frame' call h', app.resume frame res h₀ = .yields frame' call h' ∧
              r = (ref.setContext th (.suspended frame' call) h', some call)) ∨
            ∃ h', app.resume frame res h₀ = .returns h' ∧
              r = (ref.setContext th .finished h', none))) := by
  have hresume : ∀ th frame, ref.resume app th frame res = some r →
      ∃ h₀, ref.heaps[th.heap]? = some h₀ ∧
        ((∃ frame' call h', app.resume frame res h₀ = .yields frame' call h' ∧
            r = (ref.setContext th (.suspended frame' call) h', some call)) ∨
          ∃ h', app.resume frame res h₀ = .returns h' ∧
            r = (ref.setContext th .finished h', none)) := by
    intro th frame hr
    obtain ⟨h₀, hh₀, hr⟩ := Option.bind_eq_some_iff.mp hr
    refine ⟨h₀, hh₀, ?_⟩
    cases hout : app.resume frame res h₀ with
    | yields frame' call h' =>
      rw [hout] at hr
      exact Or.inl ⟨frame', call, h', rfl, (Option.some.inj hr).symm⟩
    | returns h' =>
      rw [hout] at hr
      exact Or.inr ⟨h', rfl, (Option.some.inj hr).symm⟩
    | raises =>
      rw [hout] at hr
      cases hr
  obtain ⟨th, hth, hr⟩ := Option.bind_eq_some_iff.mp h
  refine ⟨th, hth, ?_⟩
  cases hctx : th.context with
  | finished =>
    rw [hctx] at hr
    exact Or.inl ⟨rfl, (Option.some.inj hr).symm⟩
  | start frame =>
    simp only [hctx] at hr
    split_ifs at hr
    obtain ⟨h₀, hh₀, hcases⟩ := hresume th frame hr
    exact Or.inr ⟨frame, h₀, rfl, hh₀, hcases⟩
  | suspended frame call =>
    simp only [hctx] at hr
    obtain ⟨h₀, hh₀, hcases⟩ := hresume th frame hr
    exact Or.inr ⟨frame, h₀, rfl, hh₀, hcases⟩

theorem Reference.current_lt_of_advance {choice : Label} {ref' : Reference V F S H}
    {call : Syscall V F} (h : ref.advance app choice = some (ref', some call)) :
    ref'.current < ref'.threads.length := by
  obtain ⟨⟨ref₁, res⟩, -, hsend⟩ := Option.bind_eq_some_iff.mp h
  obtain ⟨th, hth, hcases⟩ := Reference.send_cases app hsend
  have hlt : ref₁.current < ref₁.threads.length := (List.getElem?_eq_some_iff.mp hth).1
  rcases hcases with ⟨-, hr⟩ | ⟨frame, h₀, -, -, ⟨frame', call', h', -, hr⟩ | ⟨h', -, hr⟩⟩
  · cases (Prod.mk.inj hr).2
  · rw [(Prod.mk.inj hr).1]
    show ref₁.current < (ref₁.threads.set _ _).length
    rw [List.length_set]
    exact hlt
  · cases (Prod.mk.inj hr).2

theorem Reference.run_concat (trace : List Label) (choice : Label) :
    Reference.run app (trace ++ [choice]) =
      (Reference.run app trace) >>= fun ref => ref.step app choice := by
  unfold Reference.run
  rw [List.foldlM_append]
  simp

end Jyyos.Mosaic
