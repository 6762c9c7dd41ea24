import GarnOS.Paging.Tables

/-! `arch_mm_unmap` and `arch_mm_set_flags` check no level of their walk. Where a table is missing
the next access is to physical page 0, which the direct map leaves out. -/
namespace GarnOS
open ByteMemory Outcome PageTableEntry Walks

section Unguarded
variable {s : Machine} {m : Mem} {p : List ℕ} {pt v : ℕ}

end Unguarded

end GarnOS
