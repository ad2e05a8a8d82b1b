/-
# The widths that each handler fetches

A table beside the tables of `Disasm/Decode.lean`, with the same cases: for each
opcode the row that its handler fetches (`Plan`), the immediate before the
displacement or behind it.  `decodeOpcode_takes` says that the decoder fetches what the table says, and nothing
is said here about what it should fetch.

The handlers that forget the ModR/M byte have a plan without it, and print the operand of
a byte that is 0, which has no displacement.
-/
import Tomk.Disasm.Fetches

namespace Tomk.Disasm

open Early I386

/-! ## Plans -/

/-- What a handler fetches. -/
inductive Plan where
  /-- No ModR/M byte. -/
  | imm (i : Imm)
  /-- A ModR/M byte, an immediate, the displacement if `disp`, and an immediate. -/
  | rm (pre : Imm) (disp : Bool) (post : Imm)
  /-- A ModR/M byte; the register picks the immediate and whether a displacement follows. -/
  | group (l : List (Imm × Bool))
deriving DecidableEq

def Plan.fields (op32 addr32 : Bool) (modrm sib : Byte) : Plan → List Nat
  | imm i => i.fields op32 addr32
  | rm pre disp post => 1 :: (sibFields addr32 modrm ++ (pre.fields op32 addr32
      ++ ((if disp then dispFields addr32 modrm sib else []) ++ post.fields op32 addr32)))
  | group l => 1 :: (sibFields addr32 modrm ++ ((l.getD (mid3 modrm) (.none, false)).1.fields op32 addr32
      ++ if (l.getD (mid3 modrm) (.none, false)).2 then dispFields addr32 modrm sib else []))

/-- A byte behind the counter. -/
def byteAt (mmu : Mmu) (m : Mnem) (i : Nat) : U8 :=
  (loadByte (m.offset + (m.counter + BitVec.ofNat 16 i).setWidth 32) mmu).getD 0

namespace Mnem

/-- The row of a plan, for the decoder before its fetches. -/
def fields (m : Mnem) (mmu : Mmu) (p : Plan) : List Nat :=
  p.fields m.op32 m.addr32 (byteAt mmu m 0) (byteAt mmu m 1)

/-- The row of an immediate. -/
def imm (m : Mnem) (i : Imm) : List Nat := i.fields m.op32 m.addr32

/-- The row of the displacement of the ModR/M byte that was fetched. -/
def disp (m : Mnem) : List Nat := dispFields m.addr32 m.modrm m.sib

end Mnem

/-- A byte, or by the operand size: by `W`, and by `S`. -/
def immW (opcode : U8) : Imm := if opcode &&& 0x1 != 0 then .z else .b

def immS (opcode : U8) : Imm := if opcode &&& 0x2 != 0 then .b else .z

def immWreg (opcode : U8) : Imm := if opcode &&& 0x8 != 0 then .z else .b

def imm80 (opcode : U8) : Imm := if opcode &&& 0x1 != 0 then immS opcode else .b

/-- The operand of the ModR/M byte alone. -/
def planRm : Plan := .rm .none true .none

def planNone : Plan := .imm .none

variable {mmu : Mmu} {m : Mnem} {p q : List Nat} {α : Type}

/-! ## Tokens -/

theorem quiet_token {type : TokenType} {text : Option Name} {number : U32} {size : Nat} :
    Quiet (addToken type text number size) :=
  ⟨fun _ m => ⟨rfl, rfl, m.line.grows_add _, nofun⟩⟩

theorem quiet_immediateV (v : U32) : Quiet (immediateV v) := quiet_state_bind fun _ => quiet_token

theorem quiet_immediateW (v : U32) : Quiet (immediateW v) := quiet_state_bind fun _ => quiet_token

theorem quiet_regSum (i j : Nat) : Quiet (regSum i j) :=
  quiet_token.bind fun _ => quiet_token.bind fun _ => quiet_token

theorem quiet_getBaseToken : Quiet getBaseToken :=
  quiet_state_bind fun _ =>
    quiet_ite (quiet_regSum ..) <| quiet_ite (quiet_regSum ..) <| quiet_ite (quiet_regSum ..) <|
    quiet_ite (quiet_regSum ..) <| quiet_ite quiet_token <| quiet_ite quiet_token <|
    quiet_ite quiet_token quiet_token

theorem quiet_scaledIndex : Quiet scaledIndex :=
  quiet_state_bind fun _ =>
    quiet_token.bind fun _ => quiet_token.bind fun _ => quiet_token

theorem quiet_baseToken : Quiet baseToken := by
  refine quiet_state_bind fun m => quiet_ite (quiet_state_bind fun m => quiet_ite ?_ ?_) ?_
  · exact quiet_token.bind fun _ => quiet_ite quiet_token
      (quiet_scaledIndex.bind fun _ => quiet_token)
  · exact quiet_token.bind fun _ => quiet_token
  · exact quiet_getBaseToken.bind fun _ => quiet_token

theorem quiet_regV (i : Nat) : Quiet (regV i) :=
  quiet_state_bind fun _ => quiet_ite quiet_token quiet_token

theorem quiet_regW (i : Nat) : Quiet (regW i) :=
  quiet_state_bind fun _ => quiet_ite (quiet_regV i) quiet_token

/-! ## The operand of the ModR/M byte -/

theorem fetches_modrmToken00 (mmu : Mmu) (m : Mnem) :
    Fetches mmu modrmToken00 m (if m.rm = 0b101 ∨ m.rm = 0b100 ∧ m.base = 0b101 then [4] else []) := by
  refine fetches_state_bind (fetches_ite (fun h4 => ?_) fun h4 => ?_)
  · refine fetches_ite (fun _ => fetches_ite (fun h5 => ?_) fun h5 => ?_) fun _ =>
      fetches_ite (fun h5 => ?_) fun h5 => ?_
    · rw [if_pos (Or.inr ⟨h4, h5⟩)]
      exact (fetches_fetchDword mmu m).then fun _ => quiet_token
    · rw [if_neg (by omega)]
      exact quiet_token.fetches mmu m
    · rw [if_pos (Or.inr ⟨h4, h5⟩)]
      exact (fetches_fetchDword mmu m).then fun _ => quiet_scaledIndex.bind fun _ =>
        quiet_token.bind fun _ => quiet_token
    · rw [if_neg (by omega)]
      exact (quiet_token.bind fun _ => quiet_token.bind fun _ => quiet_scaledIndex).fetches mmu m
  · refine fetches_ite (fun h5 => ?_) fun h5 => ?_
    · rw [if_pos (Or.inl h5)]
      exact (fetches_fetchDword mmu m).then fun _ => quiet_token
    · rw [if_neg (by omega)]
      exact quiet_token.fetches mmu m

theorem fetches_modrmToken00w (mmu : Mmu) (m : Mnem) :
    Fetches mmu modrmToken00w m (if m.rm = 0b110 then [2] else []) := by
  refine fetches_state_bind (fetches_ite (fun h => ?_) fun h => ?_)
  · rw [if_pos h]
    exact (fetches_fetchWord mmu m).then fun _ => quiet_token
  · rw [if_neg h]
    exact quiet_getBaseToken.fetches mmu m

theorem fetches_modrmToken01 (mmu : Mmu) (m : Mnem) : Fetches mmu modrmToken01 m [1] :=
  (fetches_fetchByte mmu m).then fun _ => quiet_baseToken.bind fun _ => quiet_token

theorem fetches_modrmToken10 (mmu : Mmu) (m : Mnem) :
    Fetches mmu modrmToken10 m [if m.addr32 then 4 else 2] := by
  refine fetches_state_bind (fetches_ite (fun h => ?_) fun h => ?_)
  · rw [if_pos h]
    exact (fetches_fetchDword mmu m).then fun _ => quiet_baseToken.bind fun _ => quiet_token
  · rw [if_neg h]
    exact (fetches_fetchWord mmu m).then fun _ => quiet_baseToken.bind fun _ => quiet_token

theorem fetches_modrmDisplacement (mmu : Mmu) (m : Mnem) :
    Fetches mmu modrmDisplacement m m.disp := by
  rw [Mnem.disp, dispFields]
  refine fetches_state_bind (fetches_ite (fun h0 => ?_) fun h0 => ?_)
  · rw [if_pos (show high2 m.modrm = 0 from h0)]
    refine fetches_ite (fun h => ?_) fun h => ?_
    · rw [if_pos h]
      exact fetches_modrmToken00 mmu m
    · rw [if_neg h]
      exact fetches_modrmToken00w mmu m
  · rw [if_neg (show ¬ high2 m.modrm = 0 from h0)]
    refine fetches_ite (fun h1 => ?_) fun h1 => ?_
    · rw [if_pos (show high2 m.modrm = 1 from h1)]
      exact fetches_modrmToken01 mmu m
    · rw [if_neg (show ¬ high2 m.modrm = 1 from h1)]
      refine fetches_ite (fun h2 => ?_) fun h2 => ?_
      · rw [if_pos (show high2 m.modrm = 2 from h2)]
        exact fetches_modrmToken10 mmu m
      · rw [if_neg (show ¬ high2 m.modrm = 2 from h2)]
        exact (quiet_pure _).fetches mmu m

theorem fetches_getModrmToken (mmu : Mmu) (m : Mnem) : Fetches mmu getModrmToken m m.disp :=
  fetches_state_bind <| quiet_token.seq fun _ _ _ => quiet_token.seq fun _ _ _ =>
    quiet_token.seq fun _ _ _ => (fetches_modrmDisplacement mmu _).then fun _ => quiet_token

theorem fetches_modrmGetToken (names : List Name) (size : Nat) (mmu : Mmu) (m : Mnem) :
    Fetches mmu (modrmGetToken names size) m m.disp := by
  refine fetches_state_bind (fetches_ite (fun h => ?_) fun _ => (fetches_getModrmToken mmu m).call)
  have hdisp : m.disp = [] := by
    have h3 : high2 m.modrm = 3 := h
    rw [Mnem.disp, dispFields, h3]
    rfl
  rw [hdisp]
  exact quiet_token.fetches mmu m

theorem fetches_modrmGetTokenV (mmu : Mmu) (m : Mnem) : Fetches mmu modrmGetTokenV m m.disp :=
  fetches_state_bind <| fetches_ite (fun _ => fetches_modrmGetToken ..) fun _ => fetches_modrmGetToken ..

theorem fetches_modrmGetTokenW (mmu : Mmu) (m : Mnem) : Fetches mmu modrmGetTokenW m m.disp :=
  fetches_state_bind <| fetches_ite (fun _ => fetches_modrmGetTokenV ..) fun _ => fetches_modrmGetToken ..

/-! ## Immediates -/

theorem fetches_fetchByteZx (mmu : Mmu) (m : Mnem) : Fetches mmu fetchByteZx m (m.imm .b) :=
  (fetches_fetchByte mmu m).then fun _ => quiet_pure _

theorem fetches_fetchByteSx (mmu : Mmu) (m : Mnem) : Fetches mmu fetchByteSx m (m.imm .b) :=
  fetches_state_bind <| (fetches_fetchByte mmu m).then fun _ => quiet_pure _

/-- A dword or a word by the operand size. -/
theorem fetches_byOp32 {x y : Dec α} (hx : Fetches mmu x m [4]) (hy : Fetches mmu y m [2]) :
    Fetches mmu (if m.op32 then x else y) m (m.imm .z) := by
  rw [Mnem.imm, Imm.fields]
  refine fetches_ite (fun h => ?_) fun h => ?_
  · rwa [if_pos h]
  · rwa [if_neg h]

theorem fetches_fetchV (mmu : Mmu) (m : Mnem) : Fetches mmu fetchV m (m.imm .z) :=
  fetches_state_bind <| fetches_byOp32 (fetches_fetchDword mmu m)
    ((fetches_fetchWord mmu m).then fun _ => quiet_pure _)

theorem fetches_fetchVSx (mmu : Mmu) (m : Mnem) : Fetches mmu fetchVSx m (m.imm .z) :=
  fetches_state_bind <| fetches_byOp32 (fetches_fetchDword mmu m)
    ((fetches_fetchWord mmu m).then fun _ => quiet_pure _)

theorem fetches_fetchCall (mmu : Mmu) (m : Mnem) : Fetches mmu fetchCall m (m.imm .z) :=
  fetches_state_bind <| fetches_byOp32
    ((fetches_fetchDword mmu m).then fun _ => quiet_state_bind fun _ => quiet_pure _)
    ((fetches_fetchWord mmu m).then fun _ => quiet_state_bind fun _ => quiet_pure _)

/-- One of two immediates, by a bit of the opcode. -/
theorem fetches_byBit {x y : Dec α} {b : Bool} {i j : Imm} (hx : Fetches mmu x m (m.imm i))
    (hy : Fetches mmu y m (m.imm j)) :
    Fetches mmu (if b then x else y) m (m.imm (if b then i else j)) := by
  cases b with
  | true => exact hx
  | false => exact hy

theorem fetches_fetchW (mmu : Mmu) (m : Mnem) : Fetches mmu fetchW m (m.imm (immW m.opcode)) :=
  fetches_state_bind <| fetches_byBit (fetches_fetchV mmu m) (fetches_fetchByteZx mmu m)

theorem fetches_fetchS (mmu : Mmu) (m : Mnem) : Fetches mmu fetchS m (m.imm (immS m.opcode)) :=
  fetches_state_bind <| fetches_byBit (fetches_fetchByteSx mmu m) (fetches_fetchV mmu m)

theorem fetches_fetch80 (mmu : Mmu) (m : Mnem) : Fetches mmu fetch80 m (m.imm (imm80 m.opcode)) :=
  fetches_state_bind <| fetches_byBit (fetches_fetchS mmu m) (fetches_fetchByteZx mmu m)

theorem fetches_fetchWreg (mmu : Mmu) (m : Mnem) :
    Fetches mmu fetchWreg m (m.imm (immWreg m.opcode)) :=
  fetches_state_bind <| fetches_byBit (fetches_fetchV mmu m) (fetches_fetchByteZx mmu m)

theorem fetches_fetchShort (mmu : Mmu) (m : Mnem) : Fetches mmu fetchShort m (m.imm .b) :=
  (fetches_fetchByte mmu m).then fun _ => quiet_state_bind fun _ => quiet_pure _

theorem fetches_fetchOffset (mmu : Mmu) (m : Mnem) : Fetches mmu fetchOffset m (m.imm .moffs) := by
  rw [Mnem.imm, Imm.fields]
  refine fetches_state_bind (fetches_ite (fun h => ?_) fun h => ?_)
  · rw [if_pos h]
    exact fetches_fetchDword mmu m
  · rw [if_neg h]
    exact (fetches_fetchWord mmu m).then fun _ => quiet_pure _

/-! ## The ModR/M byte -/

theorem takes_fetchByte_bind {f : U8 → Dec α}
    (h : ∀ v, loadByte m.eip mmu = some v → Takes mmu (f v) { m with counter := m.counter + 1 } p) :
    Takes mmu (fetchByte >>= f) m (1 :: p) := by
  rw [Takes, Ends, bind_run, fetchByte, fetch_run, advance, ← Mnem.eip]
  cases hphys : pgVirt2phys mmu m.eip with
  | none => rfl
  | some phys =>
      simp only [Option.bind_some]
      by_cases h0 : phys = 0
      · simp only [if_pos h0, Option.bind_some]
        have hstuck : Stuck mmu m.offset m.counter := hphys.trans (congrArg some h0)
        exact ⟨trivial, .refl m.line, fun _ h => hstuck.not_mapped h.1⟩
      · simp only [if_neg h0]
        have hread := loadByte_isSome m.eip mmu
        cases hv : loadByte m.eip mmu with
        | none =>
            rw [hv] at hread
            rw [if_neg fun h => Bool.noConfusion (hread.mpr h)]
            rfl
        | some v =>
            rw [hv] at hread
            rw [if_pos (hread.mp rfl)]
            refine (h v hv).mono id ?_
            rintro r m' ⟨h, hgrows, hnone⟩
            exact ⟨h, hgrows, fun hr hc => hnone hr hc.2.2⟩

/-- The decoder `m'` after `m` has fetched the ModR/M byte, and the SIB byte if there is one. -/
structure Mnem.Operand (mmu : Mmu) (m m' : Mnem) : Prop where
  opcode : m'.opcode = m.opcode
  op32 : m'.op32 = m.op32
  addr32 : m'.addr32 = m.addr32
  modrm : m'.modrm = byteAt mmu m 0
  disp : m'.disp = dispFields m.addr32 (byteAt mmu m 0) (byteAt mmu m 1)

theorem Mnem.Operand.imm {m' : Mnem} (h : m.Operand mmu m') (i : Imm) : m'.imm i = m.imm i := by
  rw [Mnem.imm, Mnem.imm, h.op32, h.addr32]

/-- The SIB byte counts only where there is one. -/
theorem dispFields_of_not_hasSib {addr32 : Bool} {modrm : Byte} (h : ¬ HasSib addr32 modrm)
    (sib sib' : Byte) : dispFields addr32 modrm sib = dispFields addr32 modrm sib' := by
  rw [dispFields, dispFields]
  by_cases h0 : high2 modrm = 0
  · rw [if_pos h0, if_pos h0]
    cases addr32 with
    | false => rfl
    | true =>
        have h4 : low3 modrm ≠ 4 := fun h4 => h ⟨rfl, by omega, h4⟩
        simp only [h4, false_and]
  · rw [if_neg h0, if_neg h0]

theorem byteAt_of_load {v : U8} (h : loadByte m.eip mmu = some v) : byteAt mmu m 0 = v := by
  have h0 : m.counter + BitVec.ofNat 16 0 = m.counter := BitVec.add_zero _
  rw [byteAt, h0, ← Mnem.eip, h]
  rfl

theorem takes_fetchModrm_bind {f : Unit → Dec α}
    (h : ∀ m', m.Operand mmu m' → Takes mmu (f ()) m' p) :
    Takes mmu (fetchModrm >>= f) m (1 :: (sibFields m.addr32 (byteAt mmu m 0) ++ p)) := by
  rw [fetchModrm, bind_assoc]
  refine takes_fetchByte_bind fun v hv => ?_
  have hmodrm := byteAt_of_load hv
  show Takes mmu (sibCheck >>= f) { m with counter := m.counter + 1, modrm := v } _
  rw [sibFields]
  by_cases hsib : HasSib m.addr32 (byteAt mmu m 0)
  · have hcond : m.addr32 = true ∧ modField v ≠ 0b11 ∧ rmField v = 0b100 := hmodrm ▸ hsib
    rw [if_pos hsib, sibCheck, bind_assoc]
    show Takes mmu ((if m.addr32 = true ∧ modField v ≠ 0b11 ∧ rmField v = 0b100 then _ else _) >>= f) _ _
    rw [if_pos hcond, bind_assoc]
    refine takes_fetchByte_bind fun sib hs => h _ ⟨rfl, rfl, rfl, hmodrm.symm, ?_⟩
    have hsibByte : byteAt mmu m 1 = sib := by
      rw [byteAt]
      show (loadByte (Mnem.eip { m with counter := m.counter + 1, modrm := v }) mmu).getD 0 = sib
      rw [hs]
      rfl
    rw [hmodrm, hsibByte]
    rfl
  · have hcond : ¬ (m.addr32 = true ∧ modField v ≠ 0b11 ∧ rmField v = 0b100) := hmodrm ▸ hsib
    rw [if_neg hsib, sibCheck, bind_assoc]
    show Takes mmu ((if m.addr32 = true ∧ modField v ≠ 0b11 ∧ rmField v = 0b100 then _ else _) >>= f) _ _
    rw [if_neg hcond]
    refine h _ ⟨rfl, rfl, rfl, hmodrm.symm, ?_⟩
    rw [hmodrm]
    exact dispFields_of_not_hasSib (hmodrm ▸ hsib) _ _

/-! The handlers with a ModR/M byte, by what they fetch behind it. -/

theorem takes_rm {f : Unit → Dec α} {pre post : Imm} {disp : Bool}
    (h : ∀ m', m.Operand mmu m' → Fetches mmu (f ()) m'
      (m'.imm pre ++ ((if disp then m'.disp else []) ++ m'.imm post))) :
    Takes mmu (fetchModrm >>= f) m (m.fields mmu (.rm pre disp post)) := by
  refine takes_fetchModrm_bind fun m' hm => ?_
  have h := (h m' hm).takes
  rwa [hm.imm, hm.imm, hm.disp] at h

theorem takes_rm_disp {f : Unit → Dec α} (h : ∀ m, Fetches mmu (f ()) m m.disp) :
    Takes mmu (fetchModrm >>= f) m (m.fields mmu planRm) :=
  takes_rm fun m' _ => by
    show Fetches mmu (f ()) m' (m'.disp ++ [])
    rw [List.append_nil]
    exact h m'

theorem takes_rm_pre {f : Unit → Dec α} {i : Imm}
    (h : ∀ m', m'.opcode = m.opcode → Fetches mmu (f ()) m' (m'.imm i ++ m'.disp)) :
    Takes mmu (fetchModrm >>= f) m (m.fields mmu (.rm i true .none)) :=
  takes_rm fun m' hm => by
    show Fetches mmu (f ()) m' (m'.imm i ++ (m'.disp ++ []))
    rw [List.append_nil]
    exact h m' hm.opcode

theorem takes_rm_post {f : Unit → Dec α} {i : Imm}
    (h : ∀ m', m'.opcode = m.opcode → Fetches mmu (f ()) m' (m'.disp ++ m'.imm i)) :
    Takes mmu (fetchModrm >>= f) m (m.fields mmu (.rm .none true i)) :=
  takes_rm fun m' hm => h m' hm.opcode

theorem takes_rm_none {f : Unit → Dec α} (h : Quiet (f ())) :
    Takes mmu (fetchModrm >>= f) m (m.fields mmu (.rm .none false .none)) :=
  takes_rm fun m' _ => h.fetches mmu m'

end Tomk.Disasm
