/-
# Plans and forms

The plan of an opcode is what the handler fetches, and its form is what the opcode map of
the processor gives it.  The two agree on all opcodes but the ones named here: the tables are gone
through once, and from the agreement follows that the widths add up to the same
(`sum_eq_of_agrees`), though the decoder takes an immediate before the displacement in
places.
-/
import Tomk.Disasm.PlanTables

namespace Tomk.Disasm

open I386

/-- The plan fetches the fields of the form, the immediate on either side of the
displacement. -/
def agrees : Plan → Form → Bool
  | .imm i, .imm j => i = j
  | .rm pre true post, .rm i => pre = .none ∧ post = i ∨ pre = i ∧ post = .none
  | .rm .none false .none, .regs => true
  | .group l, .group l' => (List.range 8).all fun r =>
      match l'.getD r none with
      | none => true
      | some i => l.getD r (.none, false) = (i, true)
  | _, _ => false

/-- The opcodes whose handlers fetch no ModR/M byte though they have one. -/
def unread (escape : Bool) (op : Nat) : Bool :=
  if escape then op ∈ [0x02, 0x03, 0xA5, 0xAD, 0xAF] || (0x90 ≤ op && op ≤ 0x9F)
  else op ∈ [0x62, 0x63]

theorem plan_agrees : ∀ op < 256, unread false op = false → op ≠ 0xE9 →
    entry oneByteMap op ≠ .undefined →
      agrees (switch op planNone (plans (BitVec.ofNat 8 op))) (entry oneByteMap op) := by
  decide +kernel

theorem plan_agrees_escape : ∀ op < 256, unread true op = false → 1 < op →
    hasCase op opcodes0f → entry twoByteMap op ≠ .undefined →
      agrees (switch op planNone plans0f) (entry twoByteMap op) := by
  decide +kernel

/-- A plan that agrees takes as many bytes as the form has. -/
theorem sum_eq_of_agrees {pl : Plan} {f : Form} {modrm : Byte} (h : agrees pl f = true)
    (hdef : f.Defined modrm) (op32 addr32 : Bool) (sib : Byte) :
    (pl.fields op32 addr32 modrm sib).sum = (f.fields op32 addr32 modrm sib).sum := by
  cases f with
  | undefined => exact hdef.elim
  | imm j =>
      cases pl with
      | imm i =>
          obtain rfl : i = j := of_decide_eq_true h
          rfl
      | rm pre disp post => cases disp <;> cases pre <;> cases post <;> cases h
      | group l => cases h
  | rm i =>
      cases pl with
      | imm j => cases h
      | rm pre disp post =>
          cases disp with
          | false => cases pre <;> cases post <;> cases h
          | true =>
              obtain ⟨rfl, rfl⟩ | ⟨rfl, rfl⟩ : pre = .none ∧ post = i ∨ pre = i ∧ post = .none :=
                of_decide_eq_true h
              · simp only [Plan.fields, Form.fields, if_true, List.sum_cons, List.sum_append,
                  show Imm.none.fields op32 addr32 = [] from rfl, List.sum_nil]
                omega
              · simp only [Plan.fields, Form.fields, if_true, List.sum_cons, List.sum_append,
                  show Imm.none.fields op32 addr32 = [] from rfl, List.sum_nil]
                omega
      | group l => cases h
  | regs =>
      have hsib : sibFields addr32 modrm = [] := if_neg fun h => h.2.1 hdef
      cases pl with
      | imm j => cases h
      | rm pre disp post =>
          cases disp with
          | true => cases h
          | false =>
              cases pre <;> cases post <;> try cases h
              rw [Plan.fields, hsib]
              rfl
      | group l => cases h
  | group l' =>
      cases pl with
      | imm j => cases h
      | rm pre disp post => cases disp <;> cases pre <;> cases post <;> cases h
      | group l =>
          have hr := List.all_eq_true.mp h (mid3 modrm)
            (List.mem_range.mpr (Nat.mod_lt _ (by omega)))
          obtain ⟨i, hi⟩ := Option.isSome_iff_exists.mp hdef
          rw [hi] at hr
          have hl : l.getD (mid3 modrm) (.none, false) = (i, true) := of_decide_eq_true hr
          simp only [Plan.fields, Form.fields, hl, hi, Option.getD_some, if_true, List.sum_cons,
            List.sum_append]
          omega

end Tomk.Disasm
