import Mathlib.Logic.Relation

/-! Runs of a transition system and what holds along them. -/
namespace Runs

section Reachable
variable {σ : Type*} {step : σ → σ → Prop} {inv : σ → Prop} {s t : σ}

theorem invariant (hstep : ∀ a b, inv a → step a b → inv b) (hs : inv s)
    (hrun : Relation.ReflTransGen step s t) : inv t := by
  induction hrun with
  | refl => exact hs
  | tail _ hab ih => exact hstep _ _ ih hab

end Reachable

/-- The run from `s` to `t` whose steps are labelled with the given events. -/
def Trace {σ ε : Type*} (step : σ → ε → σ → Prop) : σ → List ε → σ → Prop
  | s, [], t => s = t
  | s, e :: es, t => ∃ u, step s e u ∧ Trace step u es t

section Traces
variable {σ τ ε : Type*} {step : σ → ε → σ → Prop} {step' : τ → ε → τ → Prop} {s t : σ} {r : τ}
  {es fs : List ε}

theorem Trace.history (inv : List ε → σ → Prop)
    (hstep : ∀ es a e b, inv es a → step a e b → inv (es ++ [e]) b)
    (hs : inv [] s) (hrun : Trace step s es t) : inv es t := by
  suffices hall : ∀ fs s, inv fs s → Trace step s es t → inv (fs ++ es) t from hall [] s hs hrun
  clear hs hrun
  induction es with
  | nil =>
    intro fs s hs hrun
    obtain rfl : s = t := hrun
    simpa using hs
  | cons e es ih =>
    intro fs s hs hrun
    obtain ⟨u, hu, hrest⟩ := hrun
    have hall := ih (fs ++ [e]) u (hstep fs s e u hs hu) hrest
    simpa using hall

theorem Trace.simulate (rel : σ → τ → Prop)
    (hstep : ∀ a b e c, rel a c → step a e b → ∃ d, step' c e d ∧ rel b d)
    (hrel : rel s r) (hrun : Trace step s es t) : ∃ r', Trace step' r es r' ∧ rel t r' := by
  induction es generalizing s r with
  | nil =>
    obtain rfl : s = t := hrun
    exact ⟨r, rfl, hrel⟩
  | cons e es ih =>
    obtain ⟨u, hu, hrest⟩ := hrun
    obtain ⟨c, hc, hrel'⟩ := hstep _ _ _ _ hrel hu
    obtain ⟨r', hr', hend⟩ := ih hrel' hrest
    exact ⟨r', ⟨c, hc, hr'⟩, hend⟩

end Traces

end Runs
