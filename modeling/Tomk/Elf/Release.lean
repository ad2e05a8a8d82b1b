/-
# The memory that is allocated on the way

`load_rel` does not look at what `malloc` returns, and it has no call of `free`.  So whatever was
allocated before a relocation that fails stays allocated, and where `malloc` fails the null
pointer is written through.  The call does what is asked of it (`Releases`) if and only if no allocation
fails, and no relocation does once there is one (`elfLoadFile_releases_iff`).
-/
import Tomk.Elf.Events
import Tomk.Elf.Placement

namespace Tomk

open ByteMem

variable {H : Type} {malloc : H → U32 → U32 × H} {lookupSymbol : List U8 → U32} {m : Mem} {h : H}
  {file n p : U32}

/-! ## What is asked -/

/-- Every block is freed behind its allocation. -/
def Freed (evs : List ElfEvent) : Prop :=
  ∀ n p before behind, evs = before ++ .malloc n p :: behind → p ≠ 0 → .free p ∈ behind

/-- A section or a relocation fails. -/
def LoadFails (evs : List ElfEvent) : Prop := (∃ n, .malloc n 0 ∈ evs) ∨ .relocFailed ∈ evs

/-- A call that fails has freed what it has allocated; and it fails, without a write through the null
pointer, when an allocation does. -/
structure Releases (malloc : H → U32 → U32 × H) (lookupSymbol : List U8 → U32) (m : Mem) (h : H)
    (file : U32) : Prop where
  freed : LoadFails (elfLoadFileEvents malloc lookupSymbol m h file) →
    Freed (elfLoadFileEvents malloc lookupSymbol m h file)
  returns : ∀ n, .malloc n 0 ∈ elfLoadFileEvents malloc lookupSymbol m h file →
    ∃ m' h', elfLoadFile malloc lookupSymbol m h file = some (0, m', h')
  null : ∀ n, .memset 0 n ∉ elfLoadFileEvents malloc lookupSymbol m h file

/-! ## The call -/

theorem allocating_of_malloc (hev : .malloc n p ∈ elfLoadFileEvents malloc lookupSymbol m h file) :
    ∃ s, Comes malloc lookupSymbol m h file s ∧ s.Allocating file (sheader m file) ∧
      p = s.allocated malloc (sheader m file) := by
  obtain ⟨s, hs, hev⟩ := mem_elfLoadFileEvents_iff.mp hev
  cases Pass.does_of_mem hev with
  | malloc _ ha => exact ⟨s, hs, ha, rfl⟩

theorem allocating_of_memset (hev : .memset p n ∈ elfLoadFileEvents malloc lookupSymbol m h file) :
    ∃ s, Comes malloc lookupSymbol m h file s ∧ s.Allocating file (sheader m file) ∧
      p = s.allocated malloc (sheader m file) := by
  obtain ⟨s, hs, hev⟩ := mem_elfLoadFileEvents_iff.mp hev
  cases Pass.does_of_mem hev with
  | memset _ ha => exact ⟨s, hs, ha, rfl⟩

theorem failing_of_relocFailed
    (hev : .relocFailed ∈ elfLoadFileEvents malloc lookupSymbol m h file) :
    ∃ s, Comes malloc lookupSymbol m h file s ∧ s.Failing lookupSymbol file (sheader m file) := by
  obtain ⟨s, hs, hev⟩ := mem_elfLoadFileEvents_iff.mp hev
  cases Pass.does_of_mem hev with
  | relocFailed hf => exact ⟨s, hs, hf⟩

/-- Nothing is ever freed. -/
theorem free_notMem : .free p ∉ elfLoadFileEvents malloc lookupSymbol m h file := by
  intro hev
  obtain ⟨s, -, hev⟩ := mem_elfLoadFileEvents_iff.mp hev
  cases Pass.does_of_mem hev

/-- What is not freed was not there. -/
theorem Freed.eq_zero {evs : List ElfEvent} (hfreed : Freed evs) (hno : .free p ∉ evs)
    (hmem : .malloc n p ∈ evs) : p = 0 := by
  obtain ⟨before, behind, heq⟩ := List.append_of_mem hmem
  by_contra hp
  refine hno ?_
  rw [heq]
  exact List.mem_append_right _ (List.mem_cons_of_mem _ (hfreed n p before behind heq hp))

/-- **The call** releases its memory, and stops where it gets none, if and only if no allocation that
it comes to fails, and no relocation does if there is one. -/
theorem elfLoadFile_releases_iff (malloc : H → U32 → U32 × H) (lookupSymbol : List U8 → U32)
    (m : Mem) (h : H) (file : U32) :
    Releases malloc lookupSymbol m h file ↔
      (∀ s, Comes malloc lookupSymbol m h file s → s.Allocating file (sheader m file) →
        s.allocated malloc (sheader m file) ≠ 0) ∧
      ∀ s t, Comes malloc lookupSymbol m h file s → Comes malloc lookupSymbol m h file t →
        s.Failing lookupSymbol file (sheader m file) → ¬ t.Allocating file (sheader m file) := by
  have hmem {s : Pass H} {ev : ElfEvent} (hs : Comes malloc lookupSymbol m h file s)
      (hev : ev ∈ s.events malloc lookupSymbol file (sheader m file)) :
      ev ∈ elfLoadFileEvents malloc lookupSymbol m h file :=
    mem_elfLoadFileEvents_iff.mpr ⟨s, hs, hev⟩
  constructor
  · intro hrel
    have hsome : ∀ s, Comes malloc lookupSymbol m h file s → s.Allocating file (sheader m file) →
        s.allocated malloc (sheader m file) ≠ 0 := by
      intro s hs ha h0
      have hset := hmem hs (ha.events ▸ List.mem_cons_of_mem _ (List.mem_singleton_self _))
      rw [h0] at hset
      exact hrel.null _ hset
    refine ⟨hsome, fun s t hs ht hf ha => ?_⟩
    have hmalloc := hmem ht (ha.events ▸ List.mem_cons_self)
    exact hsome t ht ha ((hrel.freed (Or.inr (hmem hs hf.events))).eq_zero free_notMem hmalloc)
  · rintro ⟨hsome, hfail⟩
    refine ⟨fun hfails n p before behind heq hp => ?_, fun n hev => ?_, fun n hev => ?_⟩
    · have hmalloc : .malloc n p ∈ elfLoadFileEvents malloc lookupSymbol m h file := by
        rw [heq]
        exact List.mem_append_right _ List.mem_cons_self
      obtain ⟨t, ht, ha, -⟩ := allocating_of_malloc hmalloc
      rcases hfails with ⟨n', hev⟩ | hev
      · obtain ⟨s, hs, has, h0⟩ := allocating_of_malloc hev
        exact absurd h0.symm (hsome s hs has)
      · obtain ⟨s, hs, hf⟩ := failing_of_relocFailed hev
        exact absurd ha (hfail s t hs ht hf)
    · obtain ⟨s, hs, ha, h0⟩ := allocating_of_malloc hev
      exact absurd h0.symm (hsome s hs ha)
    · obtain ⟨s, hs, ha, h0⟩ := allocating_of_memset hev
      exact absurd h0.symm (hsome s hs ha)

/-- The file with `.bss` first, and its symbol undefined. -/
def undefinedMem : Mem := fun x => if x = 0x1014E then 0 else objectMem false x

/-- The relocation fails behind the allocation. -/
theorem elfLoadFile_leaks : ¬ ∀ (H : Type) (malloc : H → U32 → U32 × H)
    (lookupSymbol : List U8 → U32) (m : Mem) (h : H) (file : U32), IsLoaded m file →
      Releases malloc lookupSymbol m h file := by
  intro hall
  have hrel := hall Unit fixedMalloc noSymbols undefinedMem () 0x10000 (by decide +kernel)
  have hfailed : .relocFailed ∈ elfLoadFileEvents fixedMalloc noSymbols undefinedMem () 0x10000 := by
    decide +kernel
  have hmalloc : .malloc 4 0x20000 ∈ elfLoadFileEvents fixedMalloc noSymbols undefinedMem () 0x10000 := by
    decide +kernel
  exact absurd ((hrel.freed (Or.inr hfailed)).eq_zero free_notMem hmalloc) (by decide)

end Tomk
