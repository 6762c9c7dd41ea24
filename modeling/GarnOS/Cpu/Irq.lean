import GarnOS.Ds.LinkedList
import GarnOS.Library.Runs

/-! The registry of interrupt handlers: per line a list of heap records and a flag word. A handler
that is called is taken not to change the registry. -/
namespace GarnOS
open Function Outcome List Nat Option

def IRQ_MAX : ℕ := 256
def IRQ_SHARED : BitVec 32 := 1

/-- The number of the APIC's spurious interrupt, which `irq_handler` ignores. -/
def spuriousIrq : Fin IRQ_MAX := ⟨224, by decide⟩

/-- The two tables, and the allocated `irq_t` records by address with the handler each holds. -/
structure Irqs where
  irqHandlerLists : Fin IRQ_MAX → Option ListT
  irqFlags : Fin IRQ_MAX → BitVec 32
  records : ℕ → Option ℕ

namespace Irqs

def init : Irqs := ⟨fun _ => none, fun _ => 0, fun _ => none⟩

def handlerOf (s : Irqs) (record : ℕ) : Except Fault ℕ :=
  match s.records record with
  | some handler => .ok handler
  | none => .error (.overrun record)

def Registered (s : Irqs) (irq : Fin IRQ_MAX) (handler : ℕ) : Prop :=
  ∃ l a r, s.irqHandlerLists irq = some l ∧ l.value a = some r ∧ s.records r = some handler

end Irqs

open Irqs

/-- `record` and `node` are what `kmalloc` returned. `none` is the end of the function without a
`return`, which is where every successful call ends. -/
def irqAddHandler (s : Irqs) (record node : ℕ) (irq : Fin IRQ_MAX) (handler : ℕ)
    (flags : BitVec 32) : Except Fault (Option ℤ × Irqs) :=
  let l := (s.irqHandlerLists irq).getD listCreate
  let s := { s with
    irqHandlerLists := update s.irqHandlerLists irq (some l)
    records := update s.records record (some handler) }
  if s.irqFlags irq &&& IRQ_SHARED = 0 ∧ l.nodeCount ≠ 0 then
    .ok (some (-1), { s with records := update s.records record none })
  else if s.irqFlags irq &&& IRQ_SHARED ≠ 0 ∧ flags &&& IRQ_SHARED = 0 then
    .ok (some (-1), { s with records := update s.records record none })
  else do
    let l ← listInsert l node record
    return (none, { s with
      irqHandlerLists := update s.irqHandlerLists irq (some l)
      irqFlags := update s.irqFlags irq flags })

/-- The loop of `irq_remove_handler` from `node` on. The record is found by its handler, but
`list_remove` is asked for the handler itself. -/
def irqRemoveFrom (s : Irqs) (irq : Fin IRQ_MAX) (handler : ℕ) (l : ListT) :
    ℕ → Option ℕ → Except Fault Irqs
  | 0, _ => .error .diverges
  | _ + 1, none => .ok s
  | fuel + 1, some a => do
    let n ← l.node (some a)
    let h ← s.handlerOf n.value
    if h = handler then
      let removed ← listRemove l handler
      let l := removed.getD l
      return { s with
        irqHandlerLists := update s.irqHandlerLists irq (some l)
        irqFlags := if l.nodeCount = 0 then update s.irqFlags irq 0 else s.irqFlags }
    else irqRemoveFrom s irq handler l fuel n.next

def irqRemoveHandler (s : Irqs) (irq : Fin IRQ_MAX) (handler : ℕ) : Except Fault Irqs :=
  match s.irqHandlerLists irq with
  | none => .ok s
  | some l => irqRemoveFrom s irq handler l (l.nodeCount + 1) l.head

/-- The handlers that the loop of `irq_handler` calls from `node` on. -/
def irqCallsFrom (s : Irqs) (l : ListT) : ℕ → Option ℕ → Except Fault (List ℕ)
  | 0, _ => .error .diverges
  | _ + 1, none => .ok []
  | fuel + 1, some a => do
    let n ← l.node (some a)
    let h ← s.handlerOf n.value
    let hs ← irqCallsFrom s l fuel n.next
    return h :: hs

/-- The handlers that `irq_handler` calls, in order. -/
def irqHandler (s : Irqs) (irqNumber : Fin IRQ_MAX) : Except Fault (List ℕ) :=
  if irqNumber = spuriousIrq then .ok []
  else
    match s.irqHandlerLists irqNumber with
    | none => .ok []
    | some l => irqCallsFrom s l (l.nodeCount + 1) l.head

/-- A call on the registry; an addition carries how it ended. -/
inductive IrqEvent where
  | added (irq : Fin IRQ_MAX) (handler : ℕ) (flags : BitVec 32) (ret : Option ℤ)
  | removed (irq : Fin IRQ_MAX) (handler : ℕ)

open IrqEvent

inductive IrqStep : Irqs → IrqEvent → Irqs → Prop
  | add {s s' : Irqs} {irq : Fin IRQ_MAX} {handler : ℕ} {flags : BitVec 32} {ret : Option ℤ}
      (record node : ℕ) (hrecord : s.records record = none)
      (hnode : ∀ l ∈ s.irqHandlerLists irq, l.nodes node = none)
      (hcall : irqAddHandler s record node irq handler flags = .ok (ret, s')) :
      IrqStep s (.added irq handler flags ret) s'
  | remove {s s' : Irqs} {irq : Fin IRQ_MAX} {handler : ℕ}
      (hcall : irqRemoveHandler s irq handler = .ok s') : IrqStep s (.removed irq handler) s'

/-- What a call means for the handlers of each line. -/
def IrqEvent.apply (hs : Fin IRQ_MAX → List ℕ) : IrqEvent → Fin IRQ_MAX → List ℕ
  | .added irq handler _ none => update hs irq (hs irq ++ [handler])
  | .added _ _ _ (some _) => hs
  | .removed irq handler => update hs irq ((hs irq).erase handler)

/-- The handlers added and not removed since, in order of addition. -/
def installed (es : List IrqEvent) : Fin IRQ_MAX → List ℕ := es.foldl apply fun _ => []

/-- A call that names no registered handler for removal and leaves the spurious line alone. -/
structure TameStep (s : Irqs) (e : IrqEvent) (s' : Irqs) : Prop where
  step : IrqStep s e s'
  keeps : ∀ irq handler, e = .removed irq handler → ¬ s.Registered irq handler
  ordinary : ∀ irq handler flags ret, e = .added irq handler flags ret → irq ≠ spuriousIrq

/-- The line holds the records of `hs`, and its flag word fits them. -/
structure LineOk (s : Irqs) (irq : Fin IRQ_MAX) (hs : List ℕ) : Prop where
  holds : ∃ xs, Holds ((s.irqHandlerLists irq).getD listCreate) xs ∧
    xs.map (fun x => s.records x.2) = hs.map some
  single : s.irqFlags irq &&& IRQ_SHARED = 0 → hs.length ≤ 1
  free : hs = [] → s.irqFlags irq = 0

section Walks
variable {s : Irqs} {irq : Fin IRQ_MAX} {l : ListT} {xs zs : List (ℕ × ℕ)} {hs : List ℕ}
  {handler fuel : ℕ}

theorem Irqs.handlerOf_eq_ok {r : ℕ} : s.handlerOf r = .ok handler ↔
    s.records r = some handler := by
  unfold handlerOf
  split <;> simp_all

theorem records_ne_none (hrec : xs.map (fun x => s.records x.2) = hs.map some) :
    ∀ x ∈ xs, s.records x.2 ≠ none := by
  intro x hx
  have hsome : s.records x.2 ∈ hs.map some := hrec ▸ mem_map_of_mem hx
  obtain ⟨g, -, hg⟩ := mem_map.mp hsome
  simp [← hg]

theorem Holds.calls_from (h : Holds l (zs ++ xs))
    (hrec : xs.map (fun x => s.records x.2) = hs.map some) (hfuel : xs.length < fuel) :
    irqCallsFrom s l fuel (xs.map Prod.fst).head? = .ok hs := by
  induction xs generalizing zs fuel hs with
  | nil =>
    obtain ⟨fuel, rfl⟩ := exists_eq_succ_of_ne_zero (ne_of_gt hfuel)
    obtain rfl : hs = [] := by simpa using hrec.symm
    rfl
  | cons x xs ih =>
    obtain ⟨fuel, rfl⟩ := exists_eq_succ_of_ne_zero (ne_zero_of_lt hfuel)
    cases hs with
    | nil => simp at hrec
    | cons g hs =>
      rw [map_cons, map_cons, cons.injEq] at hrec
      have hstep : Holds l ((zs ++ [x]) ++ xs) := by simpa using h
      have hrest := @ih (zs ++ [x]) hs fuel hstep hrec.2 (by simpa using hfuel)
      have hx := handlerOf_eq_ok.mpr hrec.1
      simp only [map_cons, head?_cons, irqCallsFrom, h.deref, ok_bind, hx, hrest]
      rfl

theorem LineOk.calls (h : LineOk s irq hs) (hirq : irq ≠ spuriousIrq) :
    irqHandler s irq = .ok hs := by
  obtain ⟨xs, hholds, hrec⟩ := h.holds
  rw [irqHandler, if_neg hirq]
  cases hl : s.irqHandlerLists irq with
  | none =>
    rw [hl, getD_none] at hholds
    obtain rfl : xs = [] := length_eq_zero_iff.mp hholds.count.symm
    obtain rfl : hs = [] := by simpa using hrec.symm
    rfl
  | some l =>
    rw [hl, getD_some] at hholds
    dsimp only
    rw [hholds.visits.head]
    exact @Holds.calls_from s l xs [] hs _ hholds hrec (by rw [hholds.count]; omega)

theorem LineOk.registered (h : LineOk s irq hs) (hmem : handler ∈ hs) :
    s.Registered irq handler := by
  obtain ⟨xs, hholds, hrec⟩ := h.holds
  have hsome : some handler ∈ xs.map fun x => s.records x.2 := by
    rw [hrec]
    exact mem_map_of_mem hmem
  obtain ⟨x, hx, hval⟩ := mem_map.mp hsome
  cases hl : s.irqHandlerLists irq with
  | none =>
    rw [hl, getD_none] at hholds
    obtain rfl : xs = [] := length_eq_zero_iff.mp hholds.count.symm
    simp at hx
  | some l =>
    rw [hl, getD_some] at hholds
    exact ⟨l, x.1, x.2, hl, hholds.values x hx, hval⟩

/-- What `irq_remove_handler` does once it has found the handler: nothing, as no record of the line
has the handler's address. -/
theorem Holds.remove_found (h : Holds l xs) (hl : s.irqHandlerLists irq = some l)
    (hxs : xs ≠ []) (hne : ∀ x ∈ xs, x.2 ≠ handler) :
    (do
      let removed ← listRemove l handler
      let l := removed.getD l
      return { s with
        irqHandlerLists := update s.irqHandlerLists irq (some l)
        irqFlags := if l.nodeCount = 0 then update s.irqFlags irq 0 else s.irqFlags }) =
      Except.ok (ε := Fault) s := by
  have hcount : l.nodeCount ≠ 0 := by
    rw [h.count]
    exact fun hzero => hxs (length_eq_zero_iff.mp hzero)
  rw [h.remove_absent hne]
  simp only [ok_bind, getD_none, if_neg hcount, ← hl, update_eq_self]
  rfl

theorem Holds.remove_keeps_from (h : Holds l (zs ++ xs)) (hl : s.irqHandlerLists irq = some l)
    (hrec : xs.map (fun x => s.records x.2) = hs.map some)
    (hcode : handler ∈ hs → ∀ x ∈ zs ++ xs, x.2 ≠ handler) (hfuel : xs.length < fuel) :
    irqRemoveFrom s irq handler l fuel (xs.map Prod.fst).head? = .ok s := by
  induction xs generalizing zs fuel hs with
  | nil =>
    obtain ⟨fuel, rfl⟩ := exists_eq_succ_of_ne_zero (ne_of_gt hfuel)
    rfl
  | cons x xs ih =>
    obtain ⟨fuel, rfl⟩ := exists_eq_succ_of_ne_zero (ne_zero_of_lt hfuel)
    cases hs with
    | nil => simp at hrec
    | cons g hs =>
      rw [map_cons, map_cons, cons.injEq] at hrec
      have hx := handlerOf_eq_ok.mpr hrec.1
      simp only [map_cons, head?_cons, irqRemoveFrom, h.deref, ok_bind, hx]
      split_ifs with hg
      · exact h.remove_found hl (by simp) (hcode (by simp [hg]))
      · have hstep : Holds l ((zs ++ [x]) ++ xs) := by simpa using h
        apply ih hstep hrec.2 _ (by simpa using hfuel)
        intro hmem y hy
        exact hcode (mem_cons_of_mem _ hmem) y (by simpa using hy)

/-- A removal changes nothing: either the handler is not there, or it is looked up in the list
under an address that no record has. -/
theorem LineOk.remove_keeps (h : LineOk s irq hs)
    (hcode : handler ∈ hs → s.records handler = none) :
    irqRemoveHandler s irq handler = .ok s := by
  obtain ⟨xs, hholds, hrec⟩ := h.holds
  unfold irqRemoveHandler
  cases hl : s.irqHandlerLists irq with
  | none => rfl
  | some l =>
    rw [hl, getD_some] at hholds
    dsimp only
    rw [hholds.visits.head]
    refine @Holds.remove_keeps_from s irq l xs [] hs handler _ hholds hl hrec ?_
      (by rw [hholds.count]; omega)
    exact fun hmem x hx heq => records_ne_none hrec x hx (heq ▸ hcode hmem)

end Walks

section Steps
variable {s s' : Irqs} {irq n : Fin IRQ_MAX} {hs : List ℕ} {lines : Fin IRQ_MAX → List ℕ}
  {record node handler : ℕ} {flags : BitVec 32} {ret : Option ℤ}

theorem LineOk.congr (h : LineOk s n hs)
    (hlist : (s'.irqHandlerLists n).getD listCreate = (s.irqHandlerLists n).getD listCreate)
    (hflags : s'.irqFlags n = s.irqFlags n)
    (hrec : ∀ r, s.records r ≠ none → s'.records r = s.records r) : LineOk s' n hs := by
  obtain ⟨xs, hholds, hmap⟩ := h.holds
  refine ⟨⟨xs, by rwa [hlist], ?_⟩, by rw [hflags]; exact h.single, by rw [hflags]; exact h.free⟩
  rw [← hmap]
  exact map_congr_left fun x hx => hrec x.2 (records_ne_none hmap x hx)

theorem irqAddHandler_cases (h : irqAddHandler s record node irq handler flags = .ok (ret, s'))
    (hrecord : s.records record = none) :
    (ret = some (-1) ∧ s' = { s with
      irqHandlerLists := update s.irqHandlerLists irq
        (some ((s.irqHandlerLists irq).getD listCreate)) }) ∨
    ∃ l, listInsert ((s.irqHandlerLists irq).getD listCreate) node record = .ok l ∧
      (flags &&& IRQ_SHARED = 0 → ((s.irqHandlerLists irq).getD listCreate).nodeCount = 0) ∧
      ret = none ∧ s' = {
        irqHandlerLists := update s.irqHandlerLists irq (some l)
        irqFlags := update s.irqFlags irq flags
        records := update s.records record (some handler) } := by
  have hfreed : update (update s.records record (some handler)) record none =
      s.records := by
    rw [update_idem, ← hrecord, update_eq_self]
  simp only [irqAddHandler, hfreed] at h
  split at h
  next =>
    cases h
    exact .inl ⟨rfl, rfl⟩
  next hfirst =>
    split at h
    next =>
      cases h
      exact .inl ⟨rfl, rfl⟩
    next hsecond =>
      obtain ⟨l, hl, h⟩ := bind_eq_ok.mp h
      obtain ⟨hret, hs'⟩ := Prod.mk.inj (Except.ok.inj h)
      refine .inr ⟨l, hl, ?_, hret.symm, ?_⟩
      · intro hflags
        by_contra hcount
        exact hfirst ⟨by_contra fun hold => hsecond ⟨hold, hflags⟩, hcount⟩
      · rw [← hs', update_idem]

theorem LineOk.added {l : ListT} (h : LineOk s irq hs) (hrecord : s.records record = none)
    (hnode : ∀ l ∈ s.irqHandlerLists irq, l.nodes node = none)
    (hl : listInsert ((s.irqHandlerLists irq).getD listCreate) node record = .ok l)
    (hflags : flags &&& IRQ_SHARED = 0 →
      ((s.irqHandlerLists irq).getD listCreate).nodeCount = 0) :
    LineOk ⟨update s.irqHandlerLists irq (some l), update s.irqFlags irq flags,
      update s.records record (some handler)⟩ irq (hs ++ [handler]) := by
  obtain ⟨xs, hholds, hmap⟩ := h.holds
  have hfresh : ((s.irqHandlerLists irq).getD listCreate).nodes node = none := by
    cases hlist : s.irqHandlerLists irq with
    | none => rfl
    | some l => exact hnode l hlist
  obtain ⟨l', hl', hholds'⟩ := hholds.insert hfresh record
  cases hl'.symm.trans hl
  refine ⟨⟨xs ++ [(node, record)], by simpa using hholds', ?_⟩, ?_, by simp⟩
  · rw [map_append, map_append, ← hmap]
    congr 1
    · exact map_congr_left fun x hx => update_of_ne
        (ne_of_apply_ne s.records (hrecord.symm ▸ records_ne_none hmap x hx)) _ _
    · simp
  · intro hshared
    simp only [update_self] at hshared
    have hlen : xs.length = hs.length := by simpa using congrArg length hmap
    have hzero := hflags hshared
    rw [hholds.count, hlen] at hzero
    simp [hzero]

theorem TameStep.lineOk {e : IrqEvent} (h : TameStep s e s') (hok : ∀ n, LineOk s n (lines n)) :
    ∀ n, LineOk s' n (e.apply lines n) := by
  intro n
  cases h.step with
  | @add _ irq handler flags ret record node hrecord hnode hcall =>
    rcases irqAddHandler_cases hcall hrecord with ⟨rfl, rfl⟩ | ⟨l, hl, hflags, rfl, rfl⟩
    · refine (hok n).congr ?_ rfl fun _ _ => rfl
      by_cases hn : n = irq
      · simp [hn]
      · simp [update_of_ne hn]
    · by_cases hn : n = irq
      · subst hn
        simp only [apply, update_self]
        exact (hok n).added hrecord hnode hl hflags
      · simp only [apply, update_of_ne hn]
        refine (hok n).congr (by simp [update_of_ne hn])
          (by simp [update_of_ne hn]) fun r hr => update_of_ne ?_ _ _
        rintro rfl
        exact hr hrecord
  | @remove _ irq handler hcall =>
    have hnot : handler ∉ lines irq := fun hmem =>
      h.keeps irq handler rfl ((hok irq).registered hmem)
    obtain rfl := Except.ok.inj (((hok irq).remove_keeps fun hmem => absurd hmem hnot).symm.trans
      hcall)
    have hsame : apply lines (.removed irq handler) = lines := by
      simp [apply, erase_of_not_mem hnot, update_eq_self]
    rw [hsame]
    exact hok n

theorem lineOk_init (n : Fin IRQ_MAX) : LineOk init n [] :=
  ⟨⟨[], holds_listCreate, rfl⟩, fun _ => zero_le 1, fun _ => rfl⟩

/-- In every run of tame calls, from the empty registry. -/
theorem irq_registry_exact {es : List IrqEvent} (hrun : Runs.Trace TameStep init es s)
    (n : Fin IRQ_MAX) :
    irqHandler s n = .ok (installed es n) ∧
      (s.irqFlags n &&& IRQ_SHARED = 0 → (installed es n).length ≤ 1) ∧
      (installed es n = [] → s.irqFlags n = 0) ∧
      ∀ handler, s.records handler = none → irqRemoveHandler s n handler = .ok s := by
  obtain ⟨hlines, hspurious⟩ : (∀ n, LineOk s n (installed es n)) ∧
      installed es spuriousIrq = [] := by
    apply hrun.history fun es s => (∀ n, LineOk s n (installed es n)) ∧
      installed es spuriousIrq = []
    · intro es a e b ⟨hok, hspurious⟩ hstep
      have happly : installed (es ++ [e]) = e.apply (installed es) := by
        simp [installed, foldl_append]
      rw [happly]
      refine ⟨hstep.lineOk hok, ?_⟩
      cases e with
      | added irq handler flags ret =>
        have hne := hstep.ordinary irq handler flags ret rfl
        cases ret with
        | none => exact (update_of_ne (Ne.symm hne) _ _).trans hspurious
        | some z => exact hspurious
      | removed irq handler =>
        by_cases hirq : irq = spuriousIrq
        · subst hirq
          simp [apply, hspurious]
        · exact (update_of_ne (Ne.symm hirq) _ _).trans hspurious
    · exact ⟨lineOk_init, rfl⟩
  refine ⟨?_, (hlines n).single, (hlines n).free, fun handler hcode =>
    (hlines n).remove_keeps fun _ => hcode⟩
  by_cases hn : n = spuriousIrq
  · subst hn
    rw [hspurious]
    exact if_pos rfl
  · exact (hlines n).calls hn

end Steps

/-- The keyboard's line, and the addresses of two handlers. -/
def keyboardIrq : Fin IRQ_MAX := ⟨1, by decide⟩

def keyboardHandler : ℕ := 0xffffffff80401000

def mouseHandler : ℕ := 0xffffffff80402000

theorem lineOk_first {s : Irqs} {flags : BitVec 32}
    (h : irqAddHandler init 0x10 0x20 keyboardIrq keyboardHandler flags = .ok (none, s)) :
    TameStep init (.added keyboardIrq keyboardHandler flags none) s ∧
      LineOk s keyboardIrq [keyboardHandler] := by
  have hstep : TameStep init (.added keyboardIrq keyboardHandler flags none) s := by
    refine ⟨.add 0x10 0x20 rfl (by simp [init]) h, nofun, ?_⟩
    intro irq handler flags ret heq
    obtain ⟨rfl, -⟩ := added.inj heq
    decide
  exact ⟨hstep, hstep.lineOk lineOk_init keyboardIrq⟩

/-- The only handler of a line is removed: it is still called, and the line stays taken. -/
theorem irq_registry_stale : ∃ s s',
    Runs.Trace IrqStep init
      [.added keyboardIrq keyboardHandler 0 none, .removed keyboardIrq keyboardHandler] s ∧
    installed [.added keyboardIrq keyboardHandler 0 none, .removed keyboardIrq keyboardHandler]
      keyboardIrq = [] ∧
    irqHandler s keyboardIrq = .ok [keyboardHandler] ∧
    IrqStep s (.added keyboardIrq mouseHandler 0 (some (-1))) s' := by
  obtain ⟨s, s', hadd, hcode, hsecond, hrecord, hnode⟩ : ∃ s s',
      irqAddHandler init 0x10 0x20 keyboardIrq keyboardHandler 0 = .ok (none, s) ∧
      s.records keyboardHandler = none ∧
      irqAddHandler s 0x30 0x40 keyboardIrq mouseHandler 0 = .ok (some (-1), s') ∧
      s.records 0x30 = none ∧ ∀ l ∈ s.irqHandlerLists keyboardIrq, l.nodes 0x40 = none := by
    refine ⟨_, _, rfl, rfl, rfl, rfl, ?_⟩
    intro l hl
    cases hl
    rfl
  obtain ⟨hstep, hline⟩ := lineOk_first hadd
  exact ⟨s, s', ⟨s, hstep.step, s, .remove (hline.remove_keeps fun _ => hcode), rfl⟩, by decide,
    hline.calls (by decide), .add 0x30 0x40 hrecord hnode hsecond⟩

/-- One shared handler, and the removal of another one that was never added. -/
theorem irq_registry_exact_shared : ∃ s,
    Runs.Trace TameStep init [.added keyboardIrq keyboardHandler IRQ_SHARED none,
      .removed keyboardIrq mouseHandler] s ∧
    irqHandler s keyboardIrq = .ok [keyboardHandler] := by
  obtain ⟨s, hadd, hrec⟩ : ∃ s,
      irqAddHandler init 0x10 0x20 keyboardIrq keyboardHandler IRQ_SHARED = .ok (none, s) ∧
      s.records = update (fun _ => none) 0x10 (some keyboardHandler) := ⟨_, rfl, rfl⟩
  obtain ⟨hstep, hline⟩ := lineOk_first hadd
  have hrun : Runs.Trace TameStep init [.added keyboardIrq keyboardHandler IRQ_SHARED none,
      .removed keyboardIrq mouseHandler] s := by
    refine ⟨s, hstep, s, ⟨.remove (hline.remove_keeps fun hmem => ?_), ?_, nofun⟩, rfl⟩
    · exact absurd hmem (by decide)
    · rintro irq handler ⟨⟩ ⟨l, a, r, -, -, hr⟩
      rw [hrec, update_apply] at hr
      split_ifs at hr
      exact absurd (some.inj hr) (by decide)
  exact ⟨s, hrun, (irq_registry_exact hrun keyboardIrq).1⟩

end GarnOS
