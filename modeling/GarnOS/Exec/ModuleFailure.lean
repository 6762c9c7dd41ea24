import GarnOS.Exec.Module
import GarnOS.Fal.LookupTrace

/-! Loads that fail. A failure before the file is open can be clean; every later exit leaves the
file open or the block of the header behind. -/
namespace GarnOS.ModuleLoader
open ByteMemory Outcome Function Objects

/-- A call of `elf_load_module` or `elf_load_driver`. -/
inductive LoadCall where
  | module (path : List Char)
  | driver (node : Node)

structure LoadResult where
  code : ℤ
  node : Option Node
  state : Loader

namespace LoadCall

def path : LoadCall → List Char
  | module path => path
  | driver node => node.path

def node : LoadCall → Option Node
  | module _ => none
  | driver node => some node

def run (env : Env) (s : Loader) : LoadCall → Except Fault LoadResult
  | module path => do
    let (code, s) ← elfLoadModule env path s
    return ⟨code, none, s⟩
  | driver node => do
    let (code, node, s) ← elfLoadDriver env node s
    return ⟨code, some node, s⟩

end LoadCall

/-- From `s` to `s'` blocks are allocated and memory is written. -/
structure Grows (s s' : Loader) : Prop where
  blocks : ∀ a n, s.blocks.get a = some n → s'.blocks.get a = some n
  frees : s'.frees = s.frees
  fal : s'.fal = s.fal
  modules : s'.moduleList = s.moduleList

section Effects
variable {env : Env} {driver : Bool} {s s' t : Loader} {a h elf file size : ℕ} {path : List Char}

theorem Grows.trans (h₁ : Grows s s') (h₂ : Grows s' t) : Grows s t :=
  ⟨fun a n ha => h₂.blocks a n (h₁.blocks a n ha), h₂.frees.trans h₁.frees, h₂.fal.trans h₁.fal,
    h₂.modules.trans h₁.modules⟩

theorem Grows.write (s : Loader) (m : Mem) : Grows s { s with mem := m } :=
  ⟨fun _ _ ha => ha, rfl, rfl, rfl⟩

variable {go : Bool} {call : LoadCall} {r : LoadResult}

/-- A block stays live, or its address went to `kmfree`. -/
def LiveOrFreed (s s' : Loader) : Prop :=
  ∃ gone, s'.frees = gone ++ s.frees ∧ ∀ b n, s.blocks.get b = some n →
    s'.blocks.get b = some n ∨ b ∈ gone

theorem LiveOrFreed.kmfree (h : LiveOrFreed s s') (p : ℕ) :
    LiveOrFreed s (ModuleLoader.kmfree s' p) := by
  unfold ModuleLoader.kmfree
  split
  next => exact h
  next =>
    obtain ⟨gone, hfrees, hlive⟩ := h
    refine ⟨p :: gone, congrArg (List.cons p) hfrees, fun b n hb => ?_⟩
    obtain hs | hgone := hlive b n hb
    · by_cases hbp : b = p
      · exact .inr (hbp ▸ List.mem_cons_self)
      · refine .inl ?_
        simp [free_get, update_of_ne hbp, hs]
    · exact .inr (List.mem_cons_of_mem _ hgone)

variable (hrun : call.run env s = .ok r) (hfail : r.code = -1)
include hrun hfail

end Effects

end GarnOS.ModuleLoader
