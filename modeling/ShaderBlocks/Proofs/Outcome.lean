import ShaderBlocks.Block

/-!
# When work succeeds

Work that may fail is put together from parts, and it succeeds when all its parts do. This says so
once for work that only fails and once for work that also takes numbers from a supply, so that
what such work does can be read part by part.
-/

namespace ShaderBlocks

/-- A computation in two parts succeeds when both do. -/
theorem bind_eq_ok {ε α β : Type} {first : Except ε α} {next : α → Except ε β} {result : β} :
    (first >>= next) = .ok result ↔ ∃ value, first = .ok value ∧ next value = .ok result := by
  cases first with
  | error error => simp [bind, Except.bind]
  | ok value => simp [bind, Except.bind]

/-- Work in two parts succeeds when both do, the second one with what the first has left. -/
theorem run_bind_eq_ok {ε σ α β : Type} {first : EStateM ε σ α} {next : α → EStateM ε σ β}
    {before after : σ} {result : β} :
    (first >>= next).run before = .ok result after ↔
      ∃ value middle, first.run before = .ok value middle ∧
        (next value).run middle = .ok result after := by
  simp only [EStateM.run, bind, EStateM.bind]
  cases first before with
  | error error middle => simp
  | ok value middle =>
    simp only [EStateM.Result.ok.injEq]
    constructor
    · exact fun done => ⟨value, middle, ⟨rfl, rfl⟩, done⟩
    · rintro ⟨_, _, ⟨rfl, rfl⟩, done⟩
      exact done

/-- A value that is at hand takes nothing. -/
theorem run_pure_eq_ok {ε σ α : Type} {value result : α} {before after : σ} :
    (pure value : EStateM ε σ α).run before = .ok result after ↔
      value = result ∧ before = after := by
  have done : (pure value : EStateM ε σ α).run before = .ok value before := rfl
  simp [done]

/-- The outcome of a computation takes nothing. -/
theorem run_ofExcept_eq_ok {ε σ α : Type} {outcome : Except ε α} {before after : σ}
    {result : α} :
    (MonadExcept.ofExcept outcome : EStateM ε σ α).run before = .ok result after ↔
      outcome = .ok result ∧ before = after := by
  cases outcome with
  | ok value => exact run_pure_eq_ok.trans (by simp)
  | error error =>
    have failed : (MonadExcept.ofExcept (.error error : Except ε α) : EStateM ε σ α).run before =
      .error error before := rfl
    simp [failed]

/-- Reading a source takes no number. -/
theorem Making.run_ofSource_eq_ok {α : Type} {outcome : Except SourceError α}
    {before after : Supply} {result : α} :
    (Making.ofSource outcome).run before = .ok result after ↔
      outcome = .ok result ∧ before = after := by
  cases outcome with
  | ok value => exact run_pure_eq_ok.trans (by simp)
  | error error =>
    have failed : (Making.ofSource (.error error : Except SourceError α)).run before =
      .error (.source error) before := rfl
    simp [failed]

end ShaderBlocks
