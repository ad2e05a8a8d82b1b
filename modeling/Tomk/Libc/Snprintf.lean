/-
# `vsprintf` and `vsnprintf`

Both give `vformat` a string output and put the NUL themselves.  The outputs
differ in their length, so that after the same characters the two have counted
the same, and agree on the bytes below the length of the shorter one; this is
`Agrees`, which a character keeps whatever the counts are.
-/
import Tomk.Libc.PrintfSpec

namespace Tomk

/-! ## Texts in memory -/

/-- The text `t` at `s`, with its NUL. -/
structure TextAt (mem : Bytes) (s : U32) (t : List U8) : Prop where
  chars : ∀ i (h : i < t.length), mem (s + BitVec.ofNat 32 i) = t[i]
  nul : mem (s + BitVec.ofNat 32 t.length) = 0

/-- `vsprintf` produces the text `t` at `s`: whatever the memory was, it returns
the length and leaves the text with its NUL, which the address space can hold. -/
def VsprintfText (s : U32) (fmt : List U8) (args : List Arg) (t : List U8) : Prop :=
  t.length < 2 ^ 32 ∧ ∃ stores, vsprintf s fmt args = some (BitVec.ofNat 32 t.length, stores) ∧
    ∀ mem, TextAt (storeAll mem stores) s t

@[simp] theorem storeAll_nil (mem : Bytes) : storeAll mem [] = mem := rfl

theorem storeAll_concat (mem : Bytes) (stores : List Store) (st : Store) :
    storeAll mem (stores ++ [st]) = Function.update (storeAll mem stores) st.addr st.byte :=
  List.foldl_append

theorem storeAll_concat_self (mem : Bytes) (stores : List Store) (a : U32) (b : U8) :
    storeAll mem (stores ++ [⟨a, b⟩]) a = b := by
  rw [storeAll_concat, Function.update_self]

theorem storeAll_concat_ne {mem : Bytes} {stores : List Store} {a a' : U32} {b : U8} (h : a' ≠ a) :
    storeAll mem (stores ++ [⟨a, b⟩]) a' = storeAll mem stores a' := by
  rw [storeAll_concat, Function.update_of_ne h]

theorem add_ofNat_ne {s : U32} {i j : Nat} (hi : i < 2 ^ 32) (hj : j < 2 ^ 32) (h : i ≠ j) :
    s + BitVec.ofNat 32 i ≠ s + BitVec.ofNat 32 j := by
  intro heq
  have hw := congrArg BitVec.toNat ((BitVec.add_right_inj s).mp heq)
  simp only [BitVec.toNat_ofNat] at hw
  omega

/-! ## What the two functions do with the text -/

/-- The output that `vsprintf` and `vsnprintf` start from. -/
def stringStart (s len : U32) : PrintfOutput StringOutput := ⟨stringOutput, ⟨s, len, 0, []⟩, 0⟩

/-- What `vsprintf` makes of the output that `vformat` leaves. -/
def sprintfEnd (s : U32) (out : PrintfOutput StringOutput) : U32 × List Store :=
  (out.count, out.userparam.stores ++ [⟨s + out.count, 0⟩])

theorem vsprintf_eq (s : U32) (fmt : List U8) (args : List Arg) :
    vsprintf s fmt args
      = (formatText fmt args).map fun t => sprintfEnd s (outputAll t (stringStart s 0xFFFFFFFF)) := by
  simp only [vsprintf, vformat_eq]
  cases formatText fmt args <;> rfl

/-- Where `vsnprintf` puts the NUL. -/
def nulIndex (len count : U32) : U32 := if count < len then count else len - 1

def snprintfEnd (s len : U32) (out : PrintfOutput StringOutput) : U32 × List Store :=
  (out.count,
    out.userparam.stores ++ if len = 0 then [] else [⟨s + nulIndex len out.count, 0⟩])

theorem vsnprintf_eq (s len : U32) (fmt : List U8) (args : List Arg) :
    vsnprintf s len fmt args
      = (formatText fmt args).map fun t => snprintfEnd s len (outputAll t (stringStart s len)) := by
  have hend : ∀ out : PrintfOutput StringOutput, snprintfEnd s len out = (out.count,
      if len ≠ 0 then
        if out.count < len then out.userparam.stores ++ [⟨s + out.count, 0⟩]
        else out.userparam.stores ++ [⟨s + (len - 1), 0⟩]
      else out.userparam.stores) := by
    intro out
    by_cases h0 : len = 0
    · rw [snprintfEnd, if_pos h0, if_neg (not_not_intro h0), List.append_nil]
    · rw [snprintfEnd, if_neg h0, if_pos h0, nulIndex]
      split <;> rfl
  simp only [vsnprintf, vformat_eq, hend]
  cases formatText fmt args <;> rfl

theorem nulIndex_eq {len : U32} (h0 : len ≠ 0) {t : List U8} (ht : t.length < 2 ^ 32) :
    nulIndex len (BitVec.ofNat 32 t.length)
      = BitVec.ofNat 32 (t.take (len.toNat - 1)).length := by
  have hpos : len.toNat ≠ 0 := fun h => h0 (BitVec.eq_of_toNat_eq h)
  have htoNat : (BitVec.ofNat 32 t.length).toNat = t.length := Nat.mod_eq_of_lt ht
  apply BitVec.eq_of_toNat_eq
  rw [nulIndex, List.length_take, BitVec.toNat_ofNat]
  split
  · next h =>
      rw [BitVec.lt_def, htoNat] at h
      rw [htoNat]
      omega
  · next h =>
      rw [BitVec.not_lt, BitVec.le_def, htoNat] at h
      rw [BitVec.toNat_sub]
      show (2 ^ 32 - 1 + len.toNat) % 2 ^ 32 = _
      omega

/-! ## The characters of a text, one after the other -/

/-- What `string_output` does with a character. -/
theorem stringOutput_of_lt {out : StringOutput} (c : U8) (h : out.count < out.length) :
    stringOutput out c = { out with
      stores := out.stores ++ [⟨out.buffer + out.count, c⟩], count := out.count + 1 } := by
  simp only [stringOutput, if_pos h]

theorem stringOutput_of_not_lt {out : StringOutput} (c : U8) (h : ¬ out.count < out.length) :
    stringOutput out c = { out with count := out.count + 1 } := by
  simp only [stringOutput, if_neg h]

/-- The first characters of a text are in the buffer, and both counts are theirs. -/
structure Holds (s : U32) (t : List U8) (out : PrintfOutput StringOutput) : Prop where
  putc : out.putc = stringOutput
  buffer : out.userparam.buffer = s
  length : out.userparam.length = 0xFFFFFFFF
  strCount : out.userparam.count = BitVec.ofNat 32 t.length
  count : out.count = BitVec.ofNat 32 t.length
  chars : ∀ mem i (h : i < t.length),
    storeAll mem out.userparam.stores (s + BitVec.ofNat 32 i) = t[i]

theorem Holds.outputChar {s : U32} {t : List U8} {out : PrintfOutput StringOutput}
    (h : Holds s t out) (c : U8) (ht : t.length + 1 < 2 ^ 32) :
    Holds s (t ++ [c]) (outputChar out c) := by
  obtain ⟨hputc, hbuffer, hlength, hstr, hcount, hchars⟩ := h
  have hlt : out.userparam.count < out.userparam.length := by
    rw [hstr, hlength, BitVec.lt_def, BitVec.toNat_ofNat]
    show _ < 4294967295
    omega
  have hnext : BitVec.ofNat 32 t.length + 1 = BitVec.ofNat 32 (t ++ [c]).length := by
    rw [List.length_append, BitVec.ofNat_add]
    rfl
  simp only [Tomk.outputChar, hputc, stringOutput_of_lt c hlt]
  refine ⟨rfl, hbuffer, hlength, ?_, ?_, fun mem i hi => ?_⟩
  · exact hstr ▸ hnext
  · exact hcount ▸ hnext
  · rw [List.length_append, List.length_singleton] at hi
    show storeAll mem (_ ++ [⟨out.userparam.buffer + out.userparam.count, c⟩]) _ = _
    rw [hbuffer, hstr]
    rcases Nat.lt_or_eq_of_le (Nat.le_of_lt_succ hi) with hlt' | rfl
    · rw [storeAll_concat_ne (add_ofNat_ne (by omega) (by omega) (Nat.ne_of_lt hlt')),
        List.getElem_append_left hlt', hchars mem i hlt']
    · rw [storeAll_concat_self, List.getElem_concat_length rfl]

theorem Holds.outputAll {s : U32} {t : List U8} (t' : List U8) {out : PrintfOutput StringOutput}
    (h : Holds s t out) (ht : t.length + t'.length < 2 ^ 32) :
    Holds s (t ++ t') (outputAll t' out) := by
  induction t' generalizing t out with
  | nil => exact (List.append_nil t).symm ▸ h
  | cons c t' ih =>
      rw [List.length_cons] at ht
      rw [List.append_cons]
      refine ih (h.outputChar c (by omega)) ?_
      rw [List.length_append, List.length_singleton]
      omega

/-- **`vsprintf`** produces the text of the format, if the address space can hold
it with its NUL. -/
theorem vsprintf_text (s : U32) {fmt t : List U8} {args : List Arg}
    (h : formatText fmt args = some t) (ht : t.length < 2 ^ 32) : VsprintfText s fmt args t := by
  have hstart : Holds s [] (stringStart s 0xFFFFFFFF) :=
    ⟨rfl, rfl, rfl, rfl, rfl, fun _ i hi => absurd hi (Nat.not_lt_zero i)⟩
  have hout := hstart.outputAll t (by rwa [List.length_nil, Nat.zero_add])
  rw [List.nil_append] at hout
  have hrun := vsprintf_eq s fmt args
  rw [h, Option.map_some, sprintfEnd, hout.count] at hrun
  refine ⟨ht, _, hrun, fun mem => ⟨fun i hi => ?_, storeAll_concat_self _ _ _ _⟩⟩
  rw [storeAll_concat_ne (add_ofNat_ne (by omega) ht (Nat.ne_of_lt hi))]
  exact hout.chars mem i hi

/-! ## The shorter output beside the longer one -/

/-- Two string outputs after the same characters: below `q.length` they have made
the same of two memories that agreed there. -/
structure Agrees (p q : StringOutput) : Prop where
  length : q.length ≤ p.length
  count : p.count = q.count
  same : ∀ mem mem' : Bytes, (∀ i < q.length, mem (p.buffer + i) = mem' (q.buffer + i)) →
    ∀ i < q.length, storeAll mem p.stores (p.buffer + i) = storeAll mem' q.stores (q.buffer + i)
  inside : ∀ st ∈ q.stores, st.addr - q.buffer < q.length

theorem Agrees.stringOutput {p q : StringOutput} (h : Agrees p q) (c : U8) :
    Agrees (stringOutput p c) (stringOutput q c) := by
  obtain ⟨hlength, hcount, hsame, hinside⟩ := h
  by_cases hq : q.count < q.length
  · have hp : p.count < p.length := hcount ▸ Nat.lt_of_lt_of_le hq hlength
    rw [stringOutput_of_lt c hp, stringOutput_of_lt c hq]
    refine ⟨hlength, congrArg (· + 1) hcount, fun mem mem' hmem i hi => ?_, fun st hst => ?_⟩
    · show storeAll mem (p.stores ++ [⟨p.buffer + p.count, c⟩]) (p.buffer + i)
        = storeAll mem' (q.stores ++ [⟨q.buffer + q.count, c⟩]) (q.buffer + i)
      by_cases hi' : i = q.count
      · rw [hcount, hi', storeAll_concat_self, storeAll_concat_self]
      · rw [hcount, storeAll_concat_ne fun h => hi' (BitVec.add_right_inj _ |>.mp h),
          storeAll_concat_ne fun h => hi' (BitVec.add_right_inj _ |>.mp h)]
        exact hsame mem mem' hmem i hi
    · rcases List.mem_append.mp hst with hst | hst
      · exact hinside st hst
      · obtain rfl := List.mem_singleton.mp hst
        show q.buffer + q.count - q.buffer < q.length
        rwa [BitVec.add_comm, BitVec.add_sub_cancel]
  · rw [stringOutput_of_not_lt c hq]
    by_cases hp : p.count < p.length
    · rw [stringOutput_of_lt c hp]
      refine ⟨hlength, congrArg (· + 1) hcount, fun mem mem' hmem i hi => ?_, hinside⟩
      -- the longer one stores behind the end of the shorter one
      have hne : p.buffer + i ≠ p.buffer + p.count := by
        intro heq
        rw [BitVec.add_right_inj _ |>.mp heq, hcount] at hi
        exact hq hi
      show storeAll mem (p.stores ++ [⟨p.buffer + p.count, c⟩]) (p.buffer + i) = _
      rw [storeAll_concat_ne hne]
      exact hsame mem mem' hmem i hi
    · rw [stringOutput_of_not_lt c hp]
      exact ⟨hlength, congrArg (· + 1) hcount, hsame, hinside⟩

/-- The same for the outputs that `vformat` gets, with its count. -/
structure OutputsAgree (out out' : PrintfOutput StringOutput) : Prop where
  putc : out.putc = stringOutput
  putc' : out'.putc = stringOutput
  count : out.count = out'.count
  agrees : Agrees out.userparam out'.userparam

theorem OutputsAgree.outputAll {out out' : PrintfOutput StringOutput} (h : OutputsAgree out out')
    (t : List U8) : OutputsAgree (outputAll t out) (outputAll t out') := by
  induction t generalizing out out' with
  | nil => exact h
  | cons c t ih =>
      refine ih ⟨h.putc, h.putc', congrArg (· + 1) h.count, ?_⟩
      simp only [outputChar, h.putc, h.putc']
      exact h.agrees.stringOutput c

theorem outputAll_buffer (out : PrintfOutput StringOutput) (hputc : out.putc = stringOutput)
    (t : List U8) :
    (outputAll t out).userparam.buffer = out.userparam.buffer ∧
      (outputAll t out).userparam.length = out.userparam.length := by
  induction t generalizing out with
  | nil => exact ⟨rfl, rfl⟩
  | cons c t ih =>
      have hkeep : (stringOutput out.userparam c).buffer = out.userparam.buffer ∧
          (stringOutput out.userparam c).length = out.userparam.length := by
        simp only [stringOutput]
        split <;> exact ⟨rfl, rfl⟩
      have hstr : (outputChar out c).userparam = stringOutput out.userparam c :=
        congrArg (· out.userparam c) hputc
      rw [← hstr] at hkeep
      have hnext := ih (outputChar out c) hputc
      exact ⟨hnext.1.trans hkeep.1, hnext.2.trans hkeep.2⟩

/-- **`vsnprintf`** agrees with `vsprintf`: it returns the length of the text that
`vsprintf` produces, writes as much of it as there is place for, with a NUL, and
nothing elsewhere. -/
theorem vsnprintf_agrees {s : U32} {fmt t : List U8} {args : List Arg}
    (h : VsprintfText s fmt args t) (buffer len : U32) :
    ∃ stores, vsnprintf buffer len fmt args = some (BitVec.ofNat 32 t.length, stores) ∧
      (∀ st ∈ stores, (st.addr - buffer).toNat < len.toNat) ∧
      (len ≠ 0 → ∀ mem, TextAt (storeAll mem stores) buffer (t.take (len.toNat - 1))) := by
  obtain ⟨ht, stores, hrun, htext⟩ := h
  rw [vsprintf_eq] at hrun
  obtain ⟨t', ht', hout⟩ := Option.map_eq_some_iff.mp hrun
  have hagree : OutputsAgree (stringStart s 0xFFFFFFFF) (stringStart buffer len) := by
    refine ⟨rfl, rfl, rfl, ?_, rfl, fun _ _ hmem => hmem, fun _ hst => absurd hst List.not_mem_nil⟩
    show len.toNat ≤ 4294967295
    omega
  have hend := hagree.outputAll t'
  obtain ⟨hbuffer, hlength⟩ := outputAll_buffer (stringStart buffer len) rfl t'
  obtain ⟨hbufferS, _⟩ := outputAll_buffer (stringStart s 0xFFFFFFFF) rfl t'
  obtain ⟨hcount, rfl⟩ := Prod.mk.inj hout
  have hrun' := vsnprintf_eq buffer len fmt args
  rw [ht', Option.map_some, snprintfEnd, ← hend.count, hcount] at hrun'
  refine ⟨_, hrun', fun st hst => ?_, fun h0 mem => ?_⟩
  · rcases List.mem_append.mp hst with hst | hst
    · have hin := hend.agrees.inside st hst
      rwa [hbuffer, hlength] at hin
    · split at hst
      · exact absurd hst List.not_mem_nil
      · next h0 =>
          obtain rfl := List.mem_singleton.mp hst
          have hpos : len.toNat ≠ 0 := fun h => h0 (BitVec.eq_of_toNat_eq h)
          show (buffer + nulIndex _ _ - buffer).toNat < len.toNat
          rw [BitVec.add_comm, BitVec.add_sub_cancel, nulIndex_eq h0 ht, BitVec.toNat_ofNat,
            List.length_take]
          omega
  · rw [if_neg h0, nulIndex_eq h0 ht]
    refine ⟨fun i hi => ?_, storeAll_concat_self _ _ _ _⟩
    have hi' := hi
    rw [List.length_take] at hi'
    rw [storeAll_concat_ne (add_ofNat_ne (by omega) (by rw [List.length_take]; omega)
      (Nat.ne_of_lt hi)), List.getElem_take]
    -- the same character of `vsprintf`, over a memory that holds at `s` what `mem` holds here
    have hs := (htext fun a => mem (a - s + buffer)).chars i (by omega)
    rw [hcount, storeAll_concat_ne (add_ofNat_ne (by omega) ht (by omega))] at hs
    rw [← hs]
    have hsame := hend.agrees.same (fun a => mem (a - s + buffer)) mem
    rw [hbuffer, hbufferS, hlength] at hsame
    refine (hsame (fun j _ => ?_) _ ?_).symm
    · show mem (s + j - s + buffer) = mem (buffer + j)
      rw [BitVec.add_comm s, BitVec.add_sub_cancel, BitVec.add_comm]
    · show (BitVec.ofNat 32 i).toNat < len.toNat
      rw [BitVec.toNat_ofNat]
      omega

theorem vsnprintf_agrees_minus_five :
    ∃ stores, vsnprintf 0x1000 6 (chars "%3d/%s") [.word (-5), .str (some (chars "ab"))]
        = some (6, stores) ∧
      (∀ st ∈ stores, (st.addr - 0x1000).toNat < 6) ∧
      (6 ≠ (0 : U32) → ∀ mem, TextAt (storeAll mem stores) 0x1000 (chars " -5/a")) := by
  have htext : formatText (chars "%3d/%s") [.word (-5), .str (some (chars "ab"))]
      = some (chars " -5/ab") := by decide +kernel
  exact vsnprintf_agrees (vsprintf_text 0x1000 htext (by decide)) 0x1000 6

/-! ## Where `vsnprintf` stores -/

theorem outputAll_count {out : PrintfOutput StringOutput} (t : List U8) :
    (outputAll t out).count = out.count + BitVec.ofNat 32 t.length := by
  induction t generalizing out with
  | nil => exact (BitVec.add_zero _).symm
  | cons c t ih =>
      rw [outputAll_cons, ih, List.length_cons, Nat.add_comm, BitVec.ofNat_add, ← BitVec.add_assoc]
      rfl

/-- A character is stored at its place, or not at all. -/
theorem outputAll_stores (t : List U8) (out : PrintfOutput StringOutput)
    (hputc : out.putc = stringOutput) {st : Store} (hst : st ∈ (outputAll t out).userparam.stores) :
    st ∈ out.userparam.stores ∨ ∃ j < t.length,
      st.addr = out.userparam.buffer + (out.userparam.count + BitVec.ofNat 32 j) ∧
        out.userparam.count + BitVec.ofNat 32 j < out.userparam.length := by
  induction t generalizing out with
  | nil => exact Or.inl hst
  | cons c t ih =>
      have hstr : (outputChar out c).userparam = stringOutput out.userparam c :=
        congrArg (· out.userparam c) hputc
      obtain ⟨hbuffer, hlength⟩ := outputAll_buffer out hputc [c]
      rw [outputAll_cons, outputAll_nil, hstr] at hbuffer hlength
      have hcount : (stringOutput out.userparam c).count = out.userparam.count + 1 := by
        simp only [stringOutput]
        split <;> rfl
      rcases ih (outputChar out c) hputc hst with h | ⟨j, hj, haddr, hlt⟩
      · rw [hstr] at h
        by_cases hlt : out.userparam.count < out.userparam.length
        · rw [stringOutput_of_lt c hlt] at h
          rcases List.mem_append.mp h with h | h
          · exact Or.inl h
          · obtain rfl := List.mem_singleton.mp h
            have hzero : out.userparam.count + BitVec.ofNat 32 0 = out.userparam.count :=
              BitVec.add_zero _
            refine Or.inr ⟨0, Nat.succ_pos _, ?_, ?_⟩
            · rw [hzero]
            · rwa [hzero]
        · rw [stringOutput_of_not_lt c hlt] at h
          exact Or.inl h
      · have hnext : out.userparam.count + 1 + BitVec.ofNat 32 j
            = out.userparam.count + BitVec.ofNat 32 (1 + j) := by
          rw [BitVec.ofNat_add, ← BitVec.add_assoc]
          rfl
        rw [hstr, hbuffer, hcount, hnext] at haddr
        rw [hstr, hlength, hcount, hnext] at hlt
        exact Or.inr ⟨1 + j, by rw [List.length_cons]; omega, haddr, hlt⟩

/-- **`vsnprintf`** stores from the start of the buffer up to the NUL, which is behind the
text or in the last byte, whichever comes first. -/
theorem vsnprintf_stores {fmt t : List U8} {args : List Arg} (h : formatText fmt args = some t)
    (ht : t.length < 2 ^ 32) (s len : U32) :
    ∃ stores, vsnprintf s len fmt args = some (BitVec.ofNat 32 t.length, stores) ∧
      (∀ st ∈ stores, len ≠ 0 ∧
        ∃ i ≤ min t.length (len.toNat - 1), st.addr = s + BitVec.ofNat 32 i) ∧
      (len ≠ 0 →
        ∃ st ∈ stores, st.addr = s + BitVec.ofNat 32 (min t.length (len.toNat - 1))) := by
  have hcount : (outputAll t (stringStart s len)).count = BitVec.ofNat 32 t.length := by
    rw [outputAll_count]
    exact BitVec.zero_add _
  have hrun := vsnprintf_eq s len fmt args
  rw [h, Option.map_some, snprintfEnd, hcount] at hrun
  refine ⟨_, hrun, fun st hst => ?_, fun h0 => ?_⟩
  · rcases List.mem_append.mp hst with hst | hst
    · rcases outputAll_stores t (stringStart s len) rfl hst with hst | ⟨j, hj, haddr, hlt⟩
      · exact absurd hst List.not_mem_nil
      · have hzero : (stringStart s len).userparam.count + BitVec.ofNat 32 j = BitVec.ofNat 32 j :=
          BitVec.zero_add _
        rw [hzero] at haddr hlt
        have hlt : (BitVec.ofNat 32 j).toNat < len.toNat := hlt
        rw [BitVec.toNat_ofNat, Nat.mod_eq_of_lt (by omega)] at hlt
        refine ⟨fun h0 => ?_, j, by omega, haddr⟩
        rw [h0] at hlt
        exact Nat.not_lt_zero _ hlt
    · split at hst
      · exact absurd hst List.not_mem_nil
      · next h0 =>
          obtain rfl := List.mem_singleton.mp hst
          refine ⟨h0, _, Nat.le_refl _, ?_⟩
          rw [nulIndex_eq h0 ht, List.length_take, Nat.min_comm]
  · rw [if_neg h0]
    refine ⟨_, List.mem_append_right _ (List.mem_singleton.mpr rfl), ?_⟩
    rw [nulIndex_eq h0 ht, List.length_take, Nat.min_comm]

end Tomk
