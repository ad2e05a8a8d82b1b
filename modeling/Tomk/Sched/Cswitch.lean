/-
# `cswitch.asm`: saving and loading a context

The timer interrupt pushes an interrupt frame, `cswitch_handler` pushes the
general registers on top of it, and `cswitch_save` copies the whole into the
context of a process, with the segment registers and `cr3`, which nobody has
changed.  `cswitch_load` takes a context apart again and returns with `iret`.

The stack is the list of its dwords from `esp` upwards, so that the fields of
`FRAME` are places in the list; a context has the fields of `CTX`.  A move of a
16-bit register to memory leaves the upper half of the dword alone (`movw`).

For an interrupt from ring 0 the round trip is exact.  From ring 3 the stack
pointer is saved with such a move, and what comes back has the upper half that
the context had before (`cswitch_roundTrip`).
-/
import Tomk.Word

namespace Tomk

/-- A segment selector. -/
abbrev Selector := BitVec 16

/-! ## The processor -/

structure Cpu where
  eax : U32
  ecx : U32
  edx : U32
  ebx : U32
  esp : U32
  ebp : U32
  esi : U32
  edi : U32
  eip : U32
  cs : Selector
  eflags : U32
  ss : Selector
  ds : Selector
  es : Selector
  fs : Selector
  gs : Selector
  cr3 : U32

/-- The registers, and the dwords of the stack from `esp` upwards. -/
structure Machine extends Cpu where
  stack : List U32

/-- Code runs outside ring 0. -/
def UserMode (cs : U32) : Prop := cs &&& 3 ≠ 0

instance (cs : U32) : Decidable (UserMode cs) := inferInstanceAs (Decidable (_ ≠ _))

/-- A selector as it is pushed. -/
def Selector.dword (s : Selector) : U32 := s.setWidth 32

/-- The selector in the lower half of a dword. -/
def selector (d : U32) : Selector := d.setWidth 16

def Machine.push (m : Machine) (d : U32) : Machine :=
  { m with esp := m.esp - 4, stack := d :: m.stack }

def Machine.pop (m : Machine) : U32 × Machine :=
  (m.stack.headD 0, { m with esp := m.esp + 4, stack := m.stack.tail })

/-- The gate of the timer: where the handler runs, and the stack that the task
state segment has for it. -/
structure Gate where
  cs : Selector
  eip : U32
  eflags : U32
  ss0 : Selector
  esp0 : U32
  ring0 : ¬ UserMode cs.dword

/-- An interrupt: outside ring 0 the stack is switched first. -/
def interrupt (gate : Gate) (c : Cpu) : Machine :=
  let m : Machine := { c with stack := [] }
  let m := if UserMode c.cs.dword then
      ({ m with ss := gate.ss0, esp := gate.esp0 }.push c.ss.dword).push c.esp
    else m
  let m := ((m.push c.eflags).push c.cs.dword).push c.eip
  { m with cs := gate.cs, eip := gate.eip, eflags := gate.eflags }

def pusha (m : Machine) : Machine :=
  let esp := m.esp
  (((((((m.push m.eax).push m.ecx).push m.edx).push m.ebx).push esp).push m.ebp).push m.esi).push m.edi

/-- `iret`: a return to an outer ring takes the stack as well. -/
def iret (m : Machine) : Machine :=
  let (eip, m) := m.pop
  let (cs, m) := m.pop
  let (eflags, m) := m.pop
  let m := { m with eip := eip, cs := selector cs, eflags := eflags }
  if UserMode cs then
    let (esp, m) := m.pop
    let (ss, m) := m.pop
    { m with esp := esp, ss := selector ss }
  else m

/-! ## `FRAME` and `CTX` -/

/-- The dword at a field of `FRAME`, in the order of the struct: the general
registers as `pusha` leaves them, then what the interrupt has pushed. -/
def FRAME (frame : List U32) (field : Nat) : U32 := frame.getD field 0

/-- `CTX`: `context_t`, and the interrupt frame after it. -/
structure Context where
  cr3 : U32
  gs : U32
  fs : U32
  ds : U32
  ss : U32
  es : U32
  edi : U32
  esi : U32
  ebp : U32
  esp : U32
  ebx : U32
  edx : U32
  ecx : U32
  eax : U32
  eip : U32
  cs : U32
  eflags : U32

/-- A 16-bit register is moved to a dword in memory. -/
def movw (dword : U32) (ax : BitVec 16) : U32 := (dword >>> 16) <<< 16 ||| ax.setWidth 32

/-! ## The routines -/

/-- `cswitch_save`: the context, after the registers `c` and the frame have been
saved in it. -/
def cswitchSave (c : Cpu) (frame : List U32) (ctx : Context) : Context :=
  -- interrupt frame
  let ctx := { ctx with eflags := FRAME frame 10 }
  let ctx := { ctx with cs := FRAME frame 9 }
  let ctx := { ctx with eip := FRAME frame 8 }
  let ctx :=
    if UserMode (FRAME frame 9) then
      -- user stack: `mov ax, [esi+FRAME.ss2]`, `mov eax, [esi+FRAME.esp2]`
      let ctx := { ctx with ss := movw ctx.ss (selector (FRAME frame 12)) }
      let eax := FRAME frame 11
      { ctx with esp := movw ctx.esp (eax.setWidth 16) }
    else
      -- kernel stack: `mov ax, ss`, `mov eax, [esi+FRAME.esp]`, `add eax, 12`
      let ctx := { ctx with ss := movw ctx.ss c.ss }
      { ctx with esp := FRAME frame 3 + 12 }
  -- general registers
  let ctx := { ctx with eax := FRAME frame 7 }
  let ctx := { ctx with ecx := FRAME frame 6 }
  let ctx := { ctx with edx := FRAME frame 5 }
  let ctx := { ctx with ebx := FRAME frame 4 }
  let ctx := { ctx with ebp := FRAME frame 2 }
  let ctx := { ctx with esi := FRAME frame 1 }
  let ctx := { ctx with edi := FRAME frame 0 }
  -- data segment registers
  let ctx := { ctx with es := movw ctx.es c.es }
  let ctx := { ctx with ds := movw ctx.ds c.ds }
  let ctx := { ctx with fs := movw ctx.fs c.fs }
  let ctx := { ctx with gs := movw ctx.gs c.gs }
  { ctx with cr3 := c.cr3 }

/-- `cswitch_load`, with its `iret`. -/
def cswitchLoad (m : Machine) (ctx : Context) : Machine :=
  let m := { m with cr3 := ctx.cr3 }
  let m :=
    if UserMode ctx.cs then
      -- privilege level transition interrupt frame
      (m.push ctx.ss).push ctx.esp
    else
      -- kernel stack: whatever is there
      { m with ss := selector ctx.ss, esp := ctx.esp, stack := [] }
  let m := m.push ctx.eflags
  let m := m.push ctx.cs
  let m := m.push ctx.eip
  let m := { m with es := selector ctx.es }
  let m := { m with ds := selector ctx.ds }
  let m := { m with fs := selector ctx.fs }
  let m := { m with gs := selector ctx.gs }
  let m := { m with eax := ctx.eax }
  let m := { m with ecx := ctx.ecx }
  let m := { m with edx := ctx.edx }
  let m := { m with ebx := ctx.ebx }
  let m := { m with ebp := ctx.ebp }
  let m := { m with esi := ctx.esi }
  let m := { m with edi := ctx.edi }
  iret m

/-- `cswitch_handler` up to the call of `cswitch_save`: the registers then, and
the frame.  The calls before it may change `eax`, `ecx`, `edx` and the flags. -/
def handlerEntry (gate : Gate) (c : Cpu) (eax ecx edx eflags : U32) : Cpu × List U32 :=
  let m := pusha (interrupt gate c)
  ({ m.toCpu with ebp := m.esp, eax := eax, ecx := ecx, edx := edx, eflags := eflags }, m.stack)

/-! ## The round trip -/

@[simp] theorem selector_dword (s : Selector) : selector s.dword = s := by
  apply BitVec.eq_of_toNat_eq
  simp only [selector, Selector.dword, BitVec.toNat_setWidth]
  omega

/-- The lower half of the dword is what was moved. -/
@[simp] theorem selector_movw (d : U32) (ax : BitVec 16) : selector (movw d ax) = ax := by
  apply BitVec.eq_of_getLsbD_eq
  intro i hi
  simp [selector, movw, hi]

/-- A dword is its two halves. -/
theorem movw_eq_iff (d e : U32) : movw d (e.setWidth 16) = e ↔ e >>> 16 = d >>> 16 := by
  have hbit : ∀ i, i < 32 → (movw d (e.setWidth 16)).getLsbD i
      = if i < 16 then e.getLsbD i else d.getLsbD i := by
    intro i hi
    by_cases h16 : i < 16
    · simp [movw, h16, hi]
    · simp [movw, h16, hi, show 16 + (i - 16) = i by omega]
  constructor
  · intro h
    rw [← h]
    apply BitVec.eq_of_getLsbD_eq
    intro i hi
    rw [BitVec.getLsbD_ushiftRight, BitVec.getLsbD_ushiftRight]
    by_cases h32 : 16 + i < 32
    · rw [hbit _ h32, if_neg (by omega)]
    · rw [BitVec.getLsbD_of_ge _ _ (by omega), BitVec.getLsbD_of_ge _ _ (by omega)]
  · intro h
    apply BitVec.eq_of_getLsbD_eq
    intro i hi
    rw [hbit i hi]
    by_cases h16 : i < 16
    · rw [if_pos h16]
    · have := congrArg (fun x : U32 => x.getLsbD (i - 16)) h
      simp only [BitVec.getLsbD_ushiftRight, show 16 + (i - 16) = i by omega] at this
      rw [if_neg h16, this]

/-- What is loaded after a save: all of the registers, but for the stack pointer
of a user. -/
theorem cswitchLoad_save (gate : Gate) (c : Cpu) (eax ecx edx eflags : U32) (ctx : Context)
    (m : Machine) :
    (cswitchLoad m (cswitchSave (handlerEntry gate c eax ecx edx eflags).1
      (handlerEntry gate c eax ecx edx eflags).2 ctx)).toCpu
      = if UserMode c.cs.dword then { c with esp := movw ctx.esp (c.esp.setWidth 16) } else c := by
  by_cases hu : UserMode c.cs.dword
  · rw [if_pos hu]
    simp only [handlerEntry, interrupt, pusha, Machine.push, Machine.pop, cswitchSave, cswitchLoad,
      iret, FRAME, hu, if_true, List.getD_cons_succ, List.getD_cons_zero, List.headD_cons,
      List.tail_cons, selector_dword, selector_movw]
  · rw [if_neg hu]
    -- three pushes of the interrupt, `add eax, 12`, three pushes and three pops
    have hesp : c.esp - 4 - 4 - 4 + 12 - 4 - 4 - 4 + 4 + 4 + 4 = c.esp := by bv_omega
    simp only [handlerEntry, interrupt, pusha, Machine.push, Machine.pop, cswitchSave, cswitchLoad,
      iret, FRAME, hu, hesp, if_false, List.getD_cons_succ, List.getD_cons_zero, List.headD_cons,
      List.tail_cons, selector_dword, selector_movw]

/-- From ring 0, or with the upper half of the stack pointer in the context
already, every register comes back. -/
theorem cswitchLoad_save_exact (gate : Gate) {c : Cpu} (eax ecx edx eflags : U32) {ctx : Context}
    (h : ¬ UserMode c.cs.dword ∨ c.esp >>> 16 = ctx.esp >>> 16) (m : Machine) :
    (cswitchLoad m (cswitchSave (handlerEntry gate c eax ecx edx eflags).1
      (handlerEntry gate c eax ecx edx eflags).2 ctx)).toCpu = c := by
  rw [cswitchLoad_save]
  by_cases hu : UserMode c.cs.dword
  · rw [if_pos hu, (movw_eq_iff ctx.esp c.esp).mpr (h.resolve_left fun hn => hn hu)]
  · rw [if_neg hu]

/-- The property as it is asked. -/
def RoundTrip : Prop :=
  ∀ (gate : Gate) (c : Cpu) (eax ecx edx eflags : U32) (ctx : Context) (m : Machine),
    (cswitchLoad m (cswitchSave (handlerEntry gate c eax ecx edx eflags).1
      (handlerEntry gate c eax ecx edx eflags).2 ctx)).toCpu = c

/-- **The round trip**: every register comes back if and only if the interrupt
came from ring 0, or the context already had the upper half of the stack
pointer. -/
theorem cswitch_roundTrip (gate : Gate) (c : Cpu) (eax ecx edx eflags : U32) (ctx : Context)
    (m : Machine) :
    (cswitchLoad m (cswitchSave (handlerEntry gate c eax ecx edx eflags).1
      (handlerEntry gate c eax ecx edx eflags).2 ctx)).toCpu = c ↔
      ¬ UserMode c.cs.dword ∨ c.esp >>> 16 = ctx.esp >>> 16 := by
  constructor
  · rw [cswitchLoad_save]
    by_cases hu : UserMode c.cs.dword
    · rw [if_pos hu]
      intro h
      exact Or.inr ((movw_eq_iff ctx.esp c.esp).mp (congrArg Cpu.esp h))
    · exact fun _ => Or.inl hu
  · intro h
    exact cswitchLoad_save_exact gate eax ecx edx eflags h m

/-- The gate of the timer, with the selectors of the kernel. -/
def timerGate : Gate := ⟨0x08, 0xC0101000, 0x2, 0x10, 0xC0200000, by decide⟩

/-- A user with a stack below 3 GiB. -/
def userCpu : Cpu :=
  { eax := 1, ecx := 2, edx := 3, ebx := 4, esp := 0x40100FF8, ebp := 0x40100FF8, esi := 5, edi := 6,
    eip := 0x1000, cs := 0x1B, eflags := 0x202, ss := 0x23, ds := 0x23, es := 0x23, fs := 0x23,
    gs := 0x23, cr3 := 0x300000 }

/-- A context whose stack pointer is in another 64 KiB. -/
def userContext : Context :=
  { cr3 := 0x300000, gs := 0x23, fs := 0x23, ds := 0x23, ss := 0x23, es := 0x23, edi := 0, esi := 0,
    ebp := 0x4010FFF8, esp := 0x4011FFF8, ebx := 0, edx := 0, ecx := 0, eax := 0, eip := 0x1000,
    cs := 0x1B, eflags := 0x202 }

/-- **A user comes back with another stack pointer.** -/
theorem cswitch_userStack : ¬ RoundTrip := by
  intro h
  have hback := congrArg Cpu.esp (h timerGate userCpu 0 0 0 0 userContext ⟨userCpu, []⟩)
  exact absurd hback (by decide)

end Tomk
