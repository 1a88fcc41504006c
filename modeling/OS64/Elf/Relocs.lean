import OS64.Elf.ExecImage
import OS64.Lib.Marks

/-!
# The loops over the relocations

`elf64_load_stage2` goes through the section headers, and through the entries of those that are
tables of relocations. It divides the size of a table by the size of its entries, counts them with
32 bits, and has `elf64_do_rela` look at the header of the section that `sh_info` names. All three
come from the file, and the relocations can change the file while they are worked off.

So nothing is said here about the memory: a machine is any handler of the operations, whatever a
load returns, a store changes or a function does. The functions are written once more with marks: at
the test of the loop over the entries, where `elf64_do_rela` is entered, where a section header is
looked at, and where the counter goes up. `unmark_elf64LoadStage2M` says that this is all that was
added.

`relocation_survives_iff` says what the fields have to be, each time they are come to, for the
loops to end as they should, and what the image has to be where the relocations leave the section
headers alone.
-/

namespace OS64.Elf

open OS64.Lib Prog

/-! ## The functions with marks -/

/-- The points of `elf64_load_stage2` that are marked. -/
inductive RelocMark
  /-- The test of the loop over the entries of a section. -/
  | head (sect : BitVec 64)
  /-- `elf64_do_rela` is entered. -/
  | entry (reltab : BitVec 64)
  /-- The header of section `idx` is looked at, with `e_shnum` as it was read for it. -/
  | deref (idx : Int) (count : Nat)
  /-- `idx++`. -/
  | next (idx : BitVec 32)

/-- A function of `elf.c` with marks. -/
abbrev MarkedProg : Type → Type := Prog (MarkOp ElfOp RelocMark) (MarkOp.Res ElfOp.Res)

/-- `elf64_section` behind its test of `e_shnum`. -/
def elf64SectionAt (hdr : BitVec 64) (idx : BitVec 32) (n : BitVec 16) : ElfProg (BitVec 64) :=
  if (n.toNat : Int) ≤ idx.toInt then pure 0
  else do
    let table ← elf64Sheader hdr
    pure (table + idx.signExtend 64 * BitVec.ofNat 64 shdrSize)

/-- `elf64_section`. Its caller looks at the header at once, also where it gets `NULL`. -/
def elf64SectionM (hdr : BitVec 64) (idx : BitVec 32) : MarkedProg (BitVec 64) := do
  let n ← embed (eShnum hdr)
  mark (.deref idx.toInt n.toNat)
  embed (elf64SectionAt hdr idx n)

/-- `elf64_do_rela` from the value of the symbol on. -/
def elf64DoRelaWith (hdr rel reltab ref addend : BitVec 64) : ElfProg (BitVec 32) := do
  let info ← rInfo rel
  if elf64RSym info ≠ shnUndef then do
    let link ← shLink reltab
    let symval ← elf64GetSymval hdr link ((elf64RSym info).setWidth 32)
    if symval = BitVec.ofInt 64 elfRelErr then pure (BitVec.ofInt 32 elfRelErr)
    else relaApply hdr ref symval addend (relType info)
  else relaApply hdr ref 0 addend (relType info)

/-- `elf64_do_rela` from `target->sh_offset` on. -/
def elf64DoRelaAt (hdr rel reltab target : BitVec 64) : ElfProg (BitVec 32) := do
  let off ← shOffset target
  let type ← eType hdr
  let rOff ← rOffset rel
  let ref := if type = etRel then hdr + off + rOff else rOff
  let tabType ← shType reltab
  let addend ← if tabType = shtRel then field 64 0 ref else rAddend rel
  elf64DoRelaWith hdr rel reltab ref addend

/-- `elf64_do_rela`. -/
def elf64DoRelaM (hdr rel reltab : BitVec 64) : MarkedProg (BitVec 32) := do
  mark (.entry reltab)
  let info ← embed (shInfo reltab)
  let target ← elf64SectionM hdr info
  embed (elf64DoRelaAt hdr rel reltab target)

/-- The end of a run that does not go on. -/
def stopped : ElfProg (BitVec 32) := do
  perform .stop
  pure 0

/-- A message, and the result of a load that fails. -/
def relocFailed : ElfProg (BitVec 32) := do
  perform (.kttyPuts "Failed to relocate symbol")
  pure elfLoadErr

/-- The loop of `elf64_load_stage2` over the entries of a section, from `idx` on. -/
def relLoopM (hdr sect : BitVec 64) : Nat → BitVec 32 → MarkedProg (BitVec 32)
  | 0, _ => embed stopped
  | fuel + 1, idx => do
    mark (.head sect)
    let size ← embed (shSize sect)
    let entsize ← embed (shEntsize sect)
    if entsize = 0 then embed stopped
    else if idx.toNat < size.toNat / entsize.toNat then do
      let relatab ← embed (elf64GetRela hdr sect idx)
      let result ← elf64DoRelaM hdr relatab sect
      if result = BitVec.ofInt 32 elfRelErr then embed relocFailed
      else do
        mark (.next idx)
        relLoopM hdr sect fuel (idx + 1)
    else pure 0

/-- The loop of `elf64_load_stage2` over the sections, from index `i` on. -/
def sectionLoopM (hdr shdr : BitVec 64) : Nat → Nat → MarkedProg (BitVec 32)
  | 0, _ => pure 0
  | fuel + 1, i => do
    let n ← embed (eShnum hdr)
    if i < n.toNat then do
      mark (.deref i n.toNat)
      let sect := entryAt shdr shdrSize i
      let type ← embed (shType sect)
      if type = shtRel ∨ type = shtRela then do
        let result ← relLoopM hdr sect (2 ^ 32) 0
        if result = elfLoadErr then pure elfLoadErr else sectionLoopM hdr shdr fuel (i + 1)
      else do
        embed (perform (.kttyPuts "Unsupported symbol type"))
        sectionLoopM hdr shdr fuel (i + 1)
    else pure 0

/-- `elf64_load_stage2`. -/
def elf64LoadStage2M (hdr : BitVec 64) : MarkedProg (BitVec 32) := do
  let shdr ← embed (elf64Sheader hdr)
  sectionLoopM hdr shdr (2 ^ 16) 0

/-! ## Only marks were added -/

theorem unmark_elf64DoRelaM (hdr rel reltab : BitVec 64) :
    unmark (elf64DoRelaM hdr rel reltab) = elf64DoRela hdr rel reltab := by
  have hsection : ∀ idx, unmark (elf64SectionM hdr idx) = elf64Section hdr idx := by
    intro idx
    unfold elf64SectionM
    simp only [unmark_bind, unmark_embed, unmark_mark]
    rfl
  unfold elf64DoRelaM elf64DoRela
  simp only [unmark_bind, unmark_embed, unmark_mark, hsection]
  rfl

theorem unmark_relLoopM (hdr sect : BitVec 64) : ∀ (fuel : Nat) (idx : BitVec 32),
    unmark (relLoopM hdr sect fuel idx) = relLoop hdr sect fuel idx
  | 0, _ => unmark_embed _
  | fuel + 1, idx => by
    have ih := unmark_relLoopM hdr sect fuel (idx + 1)
    unfold relLoopM relLoop
    simp only [unmark_bind, unmark_embed, unmark_mark, apply_ite unmark, unmark_pure,
      unmark_elf64DoRelaM, ih]
    rfl

theorem unmark_sectionLoopM (hdr shdr : BitVec 64) : ∀ fuel i : Nat,
    unmark (sectionLoopM hdr shdr fuel i) = sectionLoop hdr shdr fuel i
  | 0, _ => rfl
  | fuel + 1, i => by
    have ih := unmark_sectionLoopM hdr shdr fuel (i + 1)
    unfold sectionLoopM sectionLoop
    simp only [unmark_bind, unmark_embed, unmark_mark, apply_ite unmark, unmark_pure,
      unmark_relLoopM, ih]
    rfl

theorem unmark_elf64LoadStage2M (hdr : BitVec 64) :
    unmark (elf64LoadStage2M hdr) = elf64LoadStage2 hdr := by
  unfold elf64LoadStage2M elf64LoadStage2
  simp only [unmark_bind, unmark_embed, unmark_sectionLoopM]

/-! ## The parts between the marks -/

/-- The program has no division by zero and no endless loop in it. -/
abbrev StopFree {α : Type} (p : ElfProg α) : Prop := AllOps (· ≠ .stop) p

section StopFree

theorem stopFree_readBytes : ∀ (n : Nat) (a : BitVec 64), StopFree (readBytes n a)
  | 0, _ => .pure _
  | n + 1, a => (AllOps.perform nofun).bind fun _ => (stopFree_readBytes n (a + 1)).bind fun _ => .pure _

theorem stopFree_writeBytes : ∀ (n : Nat) (a : BitVec 64) (v : Nat), StopFree (writeBytes n a v)
  | 0, _, _ => .pure _
  | n + 1, a, v => (AllOps.perform nofun).bind fun _ => stopFree_writeBytes n (a + 1) (v / 256)

theorem stopFree_field (w offset : Nat) (base : BitVec 64) : StopFree (field w offset base) :=
  (stopFree_readBytes _ _).bind fun _ => .pure _

theorem stopFree_sheader (hdr : BitVec 64) : StopFree (elf64Sheader hdr) :=
  (stopFree_field _ _ _).bind fun _ => .pure _

theorem stopFree_getRela (hdr sect : BitVec 64) (idx : BitVec 32) :
    StopFree (elf64GetRela hdr sect idx) :=
  (stopFree_field _ _ _).bind fun _ => (stopFree_field _ _ _).bind fun _ => .pure _

theorem stopFree_baseaddrLoop (hdr phdr : BitVec 64) : ∀ fuel i : Nat,
    StopFree (baseaddrLoop hdr phdr fuel i)
  | 0, _ => .pure _
  | fuel + 1, i => by
    refine (stopFree_field _ _ _).bind fun n => ?_
    split
    · refine (stopFree_field _ _ _).bind fun type => ?_
      split
      · exact (stopFree_field _ _ _).bind fun _ => .pure _
      · exact stopFree_baseaddrLoop hdr phdr fuel (i + 1)
    · exact .pure _

theorem stopFree_getBaseaddr (hdr : BitVec 64) : StopFree (elf64GetBaseaddr hdr) := by
  refine (stopFree_field _ _ _).bind fun type => ?_
  split
  · exact .pure _
  · exact ((stopFree_field _ _ _).bind fun _ => .pure _).bind fun _ => stopFree_baseaddrLoop _ _ _ _

theorem stopFree_relaApply (hdr ref symval addend : BitVec 64) (t : RelType) :
    StopFree (relaApply hdr ref symval addend t) := by
  cases t with
  | none => exact .pure _
  | amd64 => exact (stopFree_writeBytes _ _ _).bind fun _ => .pure _
  | pc32 => exact (stopFree_writeBytes _ _ _).bind fun _ => .pure _
  | relative =>
    exact (stopFree_getBaseaddr hdr).bind fun _ => (stopFree_writeBytes _ _ _).bind fun _ => .pure _
  | irelative =>
    exact (AllOps.perform nofun).bind fun _ => (stopFree_writeBytes _ _ _).bind fun _ => .pure _
  | unsupported => exact (AllOps.perform nofun).bind fun _ => .pure _

theorem stopFree_doRelaWith (hdr rel reltab ref addend : BitVec 64) :
    StopFree (elf64DoRelaWith hdr rel reltab ref addend) := by
  refine (stopFree_field _ _ _).bind fun info => ?_
  split
  · refine (stopFree_field _ _ _).bind fun link => (AllOps.perform nofun).bind fun symval => ?_
    split
    · exact .pure _
    · exact stopFree_relaApply _ _ _ _ _
  · exact stopFree_relaApply _ _ _ _ _

theorem stopFree_doRelaAt (hdr rel reltab target : BitVec 64) :
    StopFree (elf64DoRelaAt hdr rel reltab target) := by
  refine (stopFree_field _ _ _).bind fun off => (stopFree_field _ _ _).bind fun type =>
    (stopFree_field _ _ _).bind fun rOff => (stopFree_field _ _ _).bind fun tabType => ?_
  dsimp only
  split
  · exact (stopFree_field _ _ _).bind fun addend => stopFree_doRelaWith _ _ _ _ _
  · exact (stopFree_field _ _ _).bind fun addend => stopFree_doRelaWith _ _ _ _ _

theorem stopFree_relocFailed : StopFree relocFailed := (AllOps.perform nofun).bind fun _ => .pure _

end StopFree

/-! ## What is asked for, and what it takes -/

section Survive

variable {σ : Type}

/-- No division by zero and no endless loop, and a section header is one of those that the file
has. -/
def relocSafe : MarkOp ElfOp RelocMark → σ → Prop
  | .op o, _ => o ≠ .stop
  | .mark (.deref idx count), _ => 0 ≤ idx ∧ idx < count
  | .mark _, _ => True

/-- At the test of the loop over the entries `sh_entsize` is not 0; where `elf64_do_rela` is entered
`sh_info` is less than `e_shnum`; and the counter does not wrap. -/
def relocMeets (h : (o : ElfOp) → σ → Option (o.Res × σ)) (hdr : BitVec 64) :
    MarkOp ElfOp RelocMark → σ → Prop
  | .mark (.head sect), s => ∀ r₁ r₂, (shSize sect).exec h s = some r₁ →
      (shEntsize sect).exec h r₁.2 = some r₂ → r₂.1 ≠ 0
  | .mark (.entry reltab), s => ∀ r₁ r₂, (shInfo reltab).exec h s = some r₁ →
      (eShnum hdr).exec h r₁.2 = some r₂ → r₁.1.toNat < r₂.1.toNat
  | .mark (.next idx), _ => idx.toNat + 1 < 2 ^ 32
  | _, _ => True

/-- What a call of `elf64_load_stage2` is to come to: it is safe, it returns 0 or `ELF_LOAD_ERR`, and
does return on a machine on which nothing else stops it. -/
structure RelocSurvives (h : (o : ElfOp) → σ → Option (o.Res × σ)) (hdr : BitVec 64) (s : σ) :
    Prop where
  safe : (elf64LoadStage2M hdr).Along (markExec h) relocSafe s
  result : ∀ r, (elf64LoadStage2 hdr).exec h s = some r → r.1 = 0 ∨ r.1 = elfLoadErr
  returns : (∀ o t, o ≠ .stop → (h o t).isSome) → ((elf64LoadStage2 hdr).exec h s).isSome

variable {h : (o : ElfOp) → σ → Option (o.Res × σ)} {hdr : BitVec 64}

/-- The program is safe from `s` just when it meets the condition. -/
def Agree {α : Type} (h : (o : ElfOp) → σ → Option (o.Res × σ)) (hdr : BitVec 64) (p : MarkedProg α)
    (s : σ) : Prop :=
  p.Along (markExec h) relocSafe s ↔ p.Along (markExec h) (relocMeets h hdr) s

theorem safe_embed {α : Type} {p : ElfProg α} (hp : StopFree p) (s : σ) :
    p.Along h (fun o => relocSafe (.op o)) s := hp.along s

theorem meets_embed {α : Type} (p : ElfProg α) (s : σ) :
    p.Along h (fun o => relocMeets h hdr (.op o)) s := by
  have htrue : AllOps (fun _ => True) p := by
    induction p with
    | ret a => trivial
    | op o next ih => exact ⟨trivial, ih⟩
  exact htrue.along s

/-- A part without marks makes no difference. -/
theorem agree_embed_bind {α β : Type} {p : ElfProg α} (hp : StopFree p) {f : α → MarkedProg β} {s : σ}
    (hf : ∀ r, p.exec h s = some r → Agree h hdr (f r.1) r.2) : Agree h hdr (embed p >>= f) s := by
  unfold Agree
  rw [along_embed_bind, along_embed_bind]
  refine and_congr (iff_of_true (safe_embed hp s) (meets_embed p s)) ?_
  exact forall_congr' fun r => imp_congr_right (hf r)

theorem agree_embed {α : Type} {p : ElfProg α} (hp : StopFree p) (s : σ) :
    Agree h hdr (embed p) s := by
  unfold Agree
  rw [along_embed, along_embed]
  exact iff_of_true (safe_embed hp s) (meets_embed p s)

theorem agree_bind {α β : Type} {p : MarkedProg α} {f : α → MarkedProg β} {s : σ}
    (hp : Agree h hdr p s) (hf : ∀ r : α × σ, Agree h hdr (f r.1) r.2) : Agree h hdr (p >>= f) s := by
  unfold Agree at hp ⊢
  rw [along_bind, along_bind, hp]
  exact and_congr_right fun _ => forall_congr' fun r => imp_congr_right fun _ => hf r

/-- A signed index is one of so many just when the field is less, as a number. -/
theorem index_inside_iff (info : BitVec 32) (n : BitVec 16) :
    (0 ≤ info.toInt ∧ info.toInt < n.toNat) ↔ info.toNat < n.toNat := by
  have hn := n.isLt
  have hi := info.isLt
  rw [BitVec.toInt_eq_toNat_cond]
  split <;> omega

theorem stopFree_sectionAt (hdr : BitVec 64) (idx : BitVec 32) (n : BitVec 16) :
    StopFree (elf64SectionAt hdr idx n) := by
  unfold elf64SectionAt
  split
  · exact .pure _
  · exact (stopFree_sheader hdr).bind fun _ => .pure _

/-- The header that `elf64_section` leads to is one that the file has just when the index is less
than `e_shnum`. -/
theorem safe_section (idx : BitVec 32) (s : σ) :
    (elf64SectionM hdr idx).Along (markExec h) relocSafe s ↔
      ∀ r, (eShnum hdr).exec h s = some r → idx.toNat < r.1.toNat := by
  unfold elf64SectionM
  rw [along_embed_bind]
  refine (and_iff_right (safe_embed (stopFree_field _ _ _) s)).trans ?_
  refine forall_congr' fun r => imp_congr_right fun _ => ?_
  rw [along_mark_bind, along_embed]
  exact (and_iff_left (safe_embed (stopFree_sectionAt _ _ _) _)).trans (index_inside_iff _ _)

theorem meets_section (idx : BitVec 32) (s : σ) :
    (elf64SectionM hdr idx).Along (markExec h) (relocMeets h hdr) s := by
  unfold elf64SectionM
  rw [along_embed_bind]
  refine ⟨meets_embed _ s, fun r _ => ?_⟩
  rw [along_mark_bind, along_embed]
  exact ⟨trivial, meets_embed _ _⟩

/-- `elf64_do_rela` looks at a header that the file has just when `sh_info` is less than
`e_shnum`. -/
theorem agree_doRela (rel reltab : BitVec 64) (s : σ) :
    Agree h hdr (elf64DoRelaM hdr rel reltab) s := by
  unfold Agree elf64DoRelaM
  rw [along_mark_bind, along_mark_bind, along_embed_bind, along_embed_bind]
  constructor
  · rintro ⟨-, -, hinfo⟩
    refine ⟨fun r₁ r₂ h₁ h₂ => ?_, meets_embed _ _, fun r₁ h₁ => ?_⟩
    · exact (safe_section _ _).mp ((along_bind _ _ _).mp (hinfo r₁ h₁)).1 r₂ h₂
    · exact (along_bind _ _ _).mpr ⟨meets_section _ _, fun r _ => (along_embed _ _).mpr (meets_embed _ _)⟩
  · rintro ⟨hmeets, -, -⟩
    refine ⟨trivial, safe_embed (stopFree_field _ _ _) s, fun r₁ h₁ => (along_bind _ _ _).mpr ⟨?_, ?_⟩⟩
    · exact (safe_section _ _).mpr fun r₂ h₂ => hmeets r₁ r₂ h₁ h₂
    · exact fun r _ => (along_embed _ _).mpr (safe_embed (stopFree_doRelaAt _ _ _ _) _)

theorem not_safe_stopped (s : σ) :
    ¬ (embed stopped : MarkedProg (BitVec 32)).Along (markExec h) relocSafe s := by
  intro hsafe
  have hfirst := ((along_bind _ _ _).mp ((along_embed _ _).mp hsafe)).1
  exact (along_perform _ _).mp hfirst rfl

theorem toNat_succ {idx : BitVec 32} (hlt : idx.toNat + 1 < 2 ^ 32) :
    (idx + 1).toNat = idx.toNat + 1 := by
  have hone : (1 : BitVec 32).toNat = 1 := rfl
  rw [BitVec.toNat_add, hone, Nat.mod_eq_of_lt hlt]

/-- An entry, and the rest of the loop behind it: it is left before the counter wraps. -/
theorem agree_next (sect : BitVec 64) {fuel : Nat} {idx : BitVec 32}
    (hfuel : idx.toNat + (fuel + 1) = 2 ^ 32)
    (hrest : ∀ s, 0 < fuel → Agree h hdr (relLoopM hdr sect fuel (idx + 1)) s) (s : σ) :
    Agree h hdr (do
      mark (.next idx)
      relLoopM hdr sect fuel (idx + 1)) s := by
  unfold Agree
  rw [along_mark_bind, along_mark_bind]
  cases fuel with
  | zero =>
    -- the loop has no end
    refine iff_of_false (fun hsafe => ?_) fun hmeets => ?_
    · exact not_safe_stopped s hsafe.2
    · have hlt : idx.toNat + 1 < 2 ^ 32 := hmeets.1
      omega
  | succ n =>
    have hlt : idx.toNat + 1 < 2 ^ 32 := by omega
    exact and_congr (iff_of_true trivial hlt) (hrest s (Nat.succ_pos n))

theorem agree_relLoop (sect : BitVec 64) : ∀ (fuel : Nat) (idx : BitVec 32) (s : σ), 0 < fuel →
    idx.toNat + fuel = 2 ^ 32 → Agree h hdr (relLoopM hdr sect fuel idx) s
  | 0, _, _, hpos, _ => absurd hpos (Nat.lt_irrefl 0)
  | fuel + 1, idx, s, _, hfuel => by
    have hnext := @agree_next σ h hdr sect fuel idx hfuel fun s hpos => by
      refine agree_relLoop sect fuel (idx + 1) s hpos ?_
      rw [toNat_succ (by omega)]
      omega
    -- what is done for an entry, once the size of the entries is known not to be 0
    have hbody : ∀ (size entsize : BitVec 64) (t : σ), Agree h hdr (
        if idx.toNat < size.toNat / entsize.toNat then do
          let relatab ← embed (elf64GetRela hdr sect idx)
          let result ← elf64DoRelaM hdr relatab sect
          if result = BitVec.ofInt 32 elfRelErr then embed relocFailed
          else do
            mark (.next idx)
            relLoopM hdr sect fuel (idx + 1)
        else pure 0) t := by
      intro size entsize t
      split
      · refine agree_embed_bind (stopFree_getRela _ _ _) fun r₁ _ => ?_
        refine agree_bind (agree_doRela _ _ _) fun r₂ => ?_
        split
        · exact agree_embed stopFree_relocFailed _
        · exact hnext _
      · exact Iff.rfl
    unfold Agree relLoopM
    rw [along_mark_bind, along_mark_bind, along_embed_bind, along_embed_bind]
    constructor
    · rintro ⟨-, -, hsize⟩
      have hent := fun r₁ h₁ => ((along_embed_bind _ _ _).mp (hsize r₁ h₁)).2
      refine ⟨fun r₁ r₂ h₁ h₂ hzero => ?_, meets_embed _ s, fun r₁ h₁ =>
        (along_embed_bind _ _ _).mpr ⟨meets_embed _ _, fun r₂ h₂ => ?_⟩⟩
      · have hsafe := hent r₁ h₁ r₂ h₂
        rw [if_pos hzero] at hsafe
        exact not_safe_stopped _ hsafe
      · have hsafe := hent r₁ h₁ r₂ h₂
        by_cases hzero : r₂.1 = 0
        · rw [if_pos hzero]
          exact (along_embed _ _).mpr (meets_embed _ _)
        · rw [if_neg hzero] at hsafe ⊢
          exact (hbody _ _ _).mp hsafe
    · rintro ⟨hhead, -, hsize⟩
      refine ⟨trivial, safe_embed (stopFree_field _ _ _) s, fun r₁ h₁ =>
        (along_embed_bind _ _ _).mpr ⟨safe_embed (stopFree_field _ _ _) _, fun r₂ h₂ => ?_⟩⟩
      have hmeets := ((along_embed_bind _ _ _).mp (hsize r₁ h₁)).2 r₂ h₂
      rw [if_neg (hhead r₁ r₂ h₁ h₂)] at hmeets ⊢
      exact (hbody _ _ _).mpr hmeets

theorem agree_sectionLoop (shdr : BitVec 64) : ∀ (fuel i : Nat) (s : σ),
    Agree h hdr (sectionLoopM hdr shdr fuel i) s
  | 0, _, _ => Iff.rfl
  | fuel + 1, i, s => by
    have hrest := fun t => agree_sectionLoop shdr fuel (i + 1) t
    unfold sectionLoopM
    refine agree_embed_bind (stopFree_field _ _ _) fun n _ => ?_
    by_cases hi : i < n.1.toNat
    · rw [if_pos hi]
      have hbody : ∀ t, Agree h hdr (do
          let type ← embed (shType (entryAt shdr shdrSize i))
          if type = shtRel ∨ type = shtRela then do
            let result ← relLoopM hdr (entryAt shdr shdrSize i) (2 ^ 32) 0
            if result = elfLoadErr then pure elfLoadErr else sectionLoopM hdr shdr fuel (i + 1)
          else do
            embed (perform (.kttyPuts "Unsupported symbol type"))
            sectionLoopM hdr shdr fuel (i + 1)) t := by
        intro t
        refine agree_embed_bind (stopFree_field _ _ _) fun type _ => ?_
        split
        · refine agree_bind (agree_relLoop _ (2 ^ 32) 0 _ (by omega) (Nat.zero_add _)) fun r => ?_
          split
          · exact Iff.rfl
          · exact hrest _
        · have hputs : StopFree (perform (.kttyPuts "Unsupported symbol type")) := AllOps.perform nofun
          refine agree_embed_bind hputs fun r _ => ?_
          exact hrest r.2
      -- the header is looked at behind the test of its index
      unfold Agree
      rw [along_mark_bind, along_mark_bind]
      refine and_congr (iff_of_true ⟨?_, ?_⟩ trivial) (hbody n.2)
      · exact Int.natCast_nonneg i
      · exact Int.ofNat_lt.mpr hi
    · rw [if_neg hi]
      exact Iff.rfl

theorem agree_stage2 (s : σ) : Agree h hdr (elf64LoadStage2M hdr) s :=
  agree_embed_bind (stopFree_sheader hdr) fun _ _ => agree_sectionLoop _ _ _ _

/-! ## The whole call -/

theorem sectionLoop_yields (shdr : BitVec 64) : ∀ fuel i : Nat,
    Yields (fun r => r = 0 ∨ r = elfLoadErr) (sectionLoop hdr shdr fuel i)
  | 0, _ => Or.inl rfl
  | fuel + 1, i => by
    unfold sectionLoop
    refine Yields.bind fun n => ?_
    split
    · refine Yields.bind fun type => ?_
      split
      · generalize relLoop hdr (entryAt shdr shdrSize i) (2 ^ 32) 0 = table
        refine Yields.bind fun result => ?_
        split
        · exact Or.inr rfl
        · exact sectionLoop_yields shdr fuel (i + 1)
      · exact Yields.bind fun _ => sectionLoop_yields shdr fuel (i + 1)
    · exact Or.inl rfl

/-- A call that is safe returns 0 or `ELF_LOAD_ERR`, and does return. -/
theorem survives_of_safe {s : σ} (hsafe : (elf64LoadStage2M hdr).Along (markExec h) relocSafe s) :
    RelocSurvives h hdr s := by
  have hyields : Yields (fun r => r = 0 ∨ r = elfLoadErr) (elf64LoadStage2 hdr) :=
    Yields.bind fun _ => sectionLoop_yields _ _ _
  refine ⟨hsafe, fun r hrun => hyields.exec hrun, fun htotal => ?_⟩
  have hgoes : (unmark (elf64LoadStage2M hdr)).Along h (fun o _ => o ≠ .stop) s :=
    along_unmark (fun o _ ho => ho) hsafe
  rw [unmark_elf64LoadStage2M] at hgoes
  exact hgoes.ends fun o t ho => htotal o t ho

/-! ## Tables that are bounded -/

/-- Each time it is come to the test of the loop, the size of the entries is not 0 and the table has
less than `2 ^ 32` of them; and `sh_info` is less than `e_shnum`. -/
def relocBounded (h : (o : ElfOp) → σ → Option (o.Res × σ)) (hdr : BitVec 64) :
    MarkOp ElfOp RelocMark → σ → Prop
  | .mark (.head sect), s => ∀ r₁ r₂, (shSize sect).exec h s = some r₁ →
      (shEntsize sect).exec h r₁.2 = some r₂ →
        r₂.1 ≠ 0 ∧ r₁.1.toNat / r₂.1.toNat < 2 ^ 32
  | .mark (.next _), _ => True
  | o, s => relocMeets h hdr o s

theorem bounded_doRela {rel reltab : BitVec 64} {s : σ}
    (hb : (elf64DoRelaM hdr rel reltab).Along (markExec h) (relocBounded h hdr) s) :
    (elf64DoRelaM hdr rel reltab).Along (markExec h) (relocMeets h hdr) s := by
  unfold elf64DoRelaM at hb ⊢
  rw [along_mark_bind, along_embed_bind] at hb ⊢
  refine ⟨hb.1, meets_embed _ s, fun r hr => (along_bind _ _ _).mpr ⟨meets_section _ _, fun r' _ => ?_⟩⟩
  exact (along_embed _ _).mpr (meets_embed _ _)

/-- A table that has less than `2 ^ 32` entries whenever that is looked at is left in time. -/
theorem bounded_relLoop (sect : BitVec 64) : ∀ (fuel : Nat) (idx : BitVec 32) (s : σ),
    (relLoopM hdr sect fuel idx).Along (markExec h) (relocBounded h hdr) s →
    (relLoopM hdr sect fuel idx).Along (markExec h) (relocMeets h hdr) s
  | 0, _, _, _ => (along_embed _ _).mpr (meets_embed _ _)
  | fuel + 1, idx, s, hb => by
    unfold relLoopM at hb ⊢
    rw [along_mark_bind, along_embed_bind] at hb ⊢
    obtain ⟨hhead, -, hsize⟩ := hb
    refine ⟨fun r₁ r₂ h₁ h₂ => (hhead r₁ r₂ h₁ h₂).1, meets_embed _ s, fun r₁ h₁ =>
      (along_embed_bind _ _ _).mpr ⟨meets_embed _ _, fun r₂ h₂ => ?_⟩⟩
    obtain ⟨hne, hfew⟩ := hhead r₁ r₂ h₁ h₂
    have hrest := ((along_embed_bind _ _ _).mp (hsize r₁ h₁)).2 r₂ h₂
    rw [if_neg hne] at hrest ⊢
    by_cases hleft : idx.toNat < r₁.1.toNat / r₂.1.toNat
    · rw [if_pos hleft, along_embed_bind] at hrest ⊢
      refine ⟨meets_embed _ _, fun r₃ h₃ => ?_⟩
      have hentry := (along_bind _ _ _).mp (hrest.2 r₃ h₃)
      refine (along_bind _ _ _).mpr ⟨bounded_doRela hentry.1, fun r₄ h₄ => ?_⟩
      have hend := hentry.2 r₄ h₄
      by_cases hfail : r₄.1 = BitVec.ofInt 32 elfRelErr
      · rw [if_pos hfail]
        exact (along_embed _ _).mpr (meets_embed _ _)
      · rw [if_neg hfail, along_mark_bind] at hend ⊢
        -- an entry is left, so the counter is less than their number
        refine ⟨?_, bounded_relLoop sect fuel (idx + 1) _ hend.2⟩
        show idx.toNat + 1 < 2 ^ 32
        omega
    · rw [if_neg hleft]
      trivial

theorem bounded_sectionLoop (shdr : BitVec 64) : ∀ (fuel i : Nat) (s : σ),
    (sectionLoopM hdr shdr fuel i).Along (markExec h) (relocBounded h hdr) s →
    (sectionLoopM hdr shdr fuel i).Along (markExec h) (relocMeets h hdr) s
  | 0, _, _, _ => trivial
  | fuel + 1, i, s, hb => by
    unfold sectionLoopM at hb ⊢
    rw [along_embed_bind] at hb ⊢
    refine ⟨meets_embed _ _, fun r₁ h₁ => ?_⟩
    have hrest := hb.2 r₁ h₁
    by_cases hi : i < r₁.1.toNat
    · rw [if_pos hi, along_mark_bind, along_embed_bind] at hrest ⊢
      refine ⟨trivial, meets_embed _ _, fun r₂ h₂ => ?_⟩
      have hsect := hrest.2.2 r₂ h₂
      by_cases htype : r₂.1 = shtRel ∨ r₂.1 = shtRela
      · rw [if_pos htype, along_bind] at hsect ⊢
        refine ⟨bounded_relLoop _ _ _ _ hsect.1, fun r₃ h₃ => ?_⟩
        have hnext := hsect.2 r₃ h₃
        by_cases hfail : r₃.1 = elfLoadErr
        · rw [if_pos hfail]
          trivial
        · rw [if_neg hfail] at hnext ⊢
          exact bounded_sectionLoop shdr fuel (i + 1) _ hnext
      · rw [if_neg htype, along_embed_bind] at hsect ⊢
        exact ⟨meets_embed _ _, fun r₃ h₃ => bounded_sectionLoop shdr fuel (i + 1) _ (hsect.2 r₃ h₃)⟩
    · rw [if_neg hi]
      trivial

/-- Tables of less than `2 ^ 32` entries of a size that is not 0, for sections that the file has, are
survived, whatever their entries are. -/
theorem bounded_stage2 {s : σ}
    (hb : (elf64LoadStage2M hdr).Along (markExec h) (relocBounded h hdr) s) :
    (elf64LoadStage2M hdr).Along (markExec h) relocSafe s := by
  refine (agree_stage2 s).mpr ?_
  unfold elf64LoadStage2M at hb ⊢
  rw [along_embed_bind] at hb ⊢
  exact ⟨meets_embed _ _, fun r hr => bounded_sectionLoop _ _ _ _ (hb.2 r hr)⟩

/-! ## Relocations that leave the section headers alone -/

variable {img : ByteMem}

/-- Section header `i` of the image. -/
def sectionAt (img : ByteMem) (i : Nat) : Elf64Shdr := shdrAt img (shdrStart img i)

/-- The machine reads the section headers as they are in the image, and does nothing else by it. -/
structure TablesShown (h : (o : ElfOp) → σ → Option (o.Res × σ)) (hdr : BitVec 64) (img : ByteMem)
    (t : σ) : Prop where
  start : (elf64Sheader hdr).exec h t = some (hdr + fieldOf 64 40 img 0, t)
  count : (eShnum hdr).exec h t = some (fieldOf 16 60 img 0, t)
  type : ∀ i, i < shdrCount img →
    (shType (entryAt (hdr + fieldOf 64 40 img 0) shdrSize i)).exec h t =
      some ((sectionAt img i).shType, t)
  size : ∀ i, i < shdrCount img →
    (shSize (entryAt (hdr + fieldOf 64 40 img 0) shdrSize i)).exec h t =
      some ((sectionAt img i).shSize, t)
  info : ∀ i, i < shdrCount img →
    (shInfo (entryAt (hdr + fieldOf 64 40 img 0) shdrSize i)).exec h t =
      some ((sectionAt img i).shInfo, t)
  entsize : ∀ i, i < shdrCount img →
    (shEntsize (entryAt (hdr + fieldOf 64 40 img 0) shdrSize i)).exec h t =
      some ((sectionAt img i).shEntsize, t)

/-- The relocations leave the section headers alone. -/
def TablesKept (h : (o : ElfOp) → σ → Option (o.Res × σ)) (hdr : BitVec 64) (img : ByteMem) (s : σ) :
    Prop :=
  (elf64LoadStage2M hdr).Along (markExec h) (fun _ t => TablesShown h hdr img t) s

/-- The tables of relocations of an image have less than `2 ^ 32` entries of a size that is not 0,
for sections that it has. -/
def tablesBounded (img : ByteMem) : Prop :=
  ∀ i, i < shdrCount img → isRelTable (sectionAt img i) →
    (sectionAt img i).shEntsize ≠ 0 ∧ relCount (sectionAt img i) < 2 ^ 32 ∧
      (sectionAt img i).shInfo.toNat < shdrCount img

/-- A part without marks is bounded. -/
theorem bounded_embed {α : Type} (p : ElfProg α) (s : σ) :
    p.Along h (fun o => relocBounded h hdr (.op o)) s := @meets_embed σ h hdr α p s

/-- What holds along a program that reads a field holds at its start. -/
theorem along_field {w offset n : Nat} (hw : w / 8 = n + 1) {base : BitVec 64}
    {Q : ElfOp → σ → Prop} {s : σ} (hk : (field w offset base).Along h Q s) :
    Q (.load (base + BitVec.ofNat 64 offset)) s := by
  unfold field at hk
  rw [along_bind, hw, readBytes, along_bind] at hk
  exact (along_perform _ _).mp hk.1.1

theorem kept_doRela {rel : BitVec 64} {i : Nat} {s : σ} (hi : i < shdrCount img)
    (hinfo : (sectionAt img i).shInfo.toNat < shdrCount img)
    (hk : (elf64DoRelaM hdr rel (entryAt (hdr + fieldOf 64 40 img 0) shdrSize i)).Along (markExec h)
      (fun _ t => TablesShown h hdr img t) s) :
    (elf64DoRelaM hdr rel (entryAt (hdr + fieldOf 64 40 img 0) shdrSize i)).Along (markExec h)
      (relocBounded h hdr) s := by
  unfold elf64DoRelaM at hk ⊢
  rw [along_mark_bind, along_embed_bind] at hk ⊢
  have hshown := hk.1
  refine ⟨fun r₁ r₂ h₁ h₂ => ?_, bounded_embed _ s, fun r _ =>
    (along_bind _ _ _).mpr ⟨?_, fun r' _ => (along_embed _ _).mpr (bounded_embed _ _)⟩⟩
  · rw [hshown.info i hi] at h₁
    obtain rfl := Option.some.inj h₁
    rw [hshown.count] at h₂
    obtain rfl := Option.some.inj h₂
    exact hinfo
  · unfold elf64SectionM
    rw [along_embed_bind]
    refine ⟨bounded_embed _ _, fun r' _ => ?_⟩
    rw [along_mark_bind, along_embed]
    exact ⟨trivial, bounded_embed _ _⟩

theorem kept_relLoop {i : Nat} (hi : i < shdrCount img)
    (hent : (sectionAt img i).shEntsize ≠ 0) (hfew : relCount (sectionAt img i) < 2 ^ 32)
    (hinfo : (sectionAt img i).shInfo.toNat < shdrCount img) :
    ∀ (fuel : Nat) (idx : BitVec 32) (s : σ),
    (relLoopM hdr (entryAt (hdr + fieldOf 64 40 img 0) shdrSize i) fuel idx).Along (markExec h)
      (fun _ t => TablesShown h hdr img t) s →
    (relLoopM hdr (entryAt (hdr + fieldOf 64 40 img 0) shdrSize i) fuel idx).Along (markExec h)
      (relocBounded h hdr) s
  | 0, _, _, _ => (along_embed _ _).mpr (bounded_embed _ _)
  | fuel + 1, idx, s, hk => by
    unfold relLoopM at hk ⊢
    rw [along_mark_bind, along_embed_bind] at hk ⊢
    obtain ⟨hshown, -, hsize⟩ := hk
    refine ⟨fun r₁ r₂ h₁ h₂ => ?_, bounded_embed _ s, fun r₁ h₁ =>
      (along_embed_bind _ _ _).mpr ⟨bounded_embed _ _, fun r₂ h₂ => ?_⟩⟩
    · rw [hshown.size i hi] at h₁
      obtain rfl := Option.some.inj h₁
      rw [hshown.entsize i hi] at h₂
      obtain rfl := Option.some.inj h₂
      exact ⟨hent, hfew⟩
    · have hrest := ((along_embed_bind _ _ _).mp (hsize r₁ h₁)).2 r₂ h₂
      by_cases hzero : r₂.1 = 0
      · rw [if_pos hzero]
        exact (along_embed _ _).mpr (bounded_embed _ _)
      rw [if_neg hzero] at hrest ⊢
      by_cases hleft : idx.toNat < r₁.1.toNat / r₂.1.toNat
      · rw [if_pos hleft, along_embed_bind] at hrest ⊢
        refine ⟨bounded_embed _ _, fun r₃ h₃ => ?_⟩
        have hentry := (along_bind _ _ _).mp (hrest.2 r₃ h₃)
        refine (along_bind _ _ _).mpr ⟨kept_doRela hi hinfo hentry.1, fun r₄ h₄ => ?_⟩
        have hend := hentry.2 r₄ h₄
        by_cases hfail : r₄.1 = BitVec.ofInt 32 elfRelErr
        · rw [if_pos hfail]
          exact (along_embed _ _).mpr (bounded_embed _ _)
        · rw [if_neg hfail, along_mark_bind] at hend ⊢
          exact ⟨trivial, kept_relLoop hi hent hfew hinfo fuel (idx + 1) _ hend.2⟩
      · rw [if_neg hleft]
        trivial

theorem kept_sectionLoop (hb : tablesBounded img) : ∀ (fuel i : Nat) (s : σ),
    (sectionLoopM hdr (hdr + fieldOf 64 40 img 0) fuel i).Along (markExec h)
      (fun _ t => TablesShown h hdr img t) s →
    (sectionLoopM hdr (hdr + fieldOf 64 40 img 0) fuel i).Along (markExec h) (relocBounded h hdr) s
  | 0, _, _, _ => trivial
  | fuel + 1, i, s, hk => by
    unfold sectionLoopM at hk ⊢
    rw [along_embed_bind] at hk ⊢
    have hshown : TablesShown h hdr img s := along_field (show 16 / 8 = 1 + 1 from rfl) hk.1
    refine ⟨bounded_embed _ _, fun r₁ h₁ => ?_⟩
    have hrest := hk.2 r₁ h₁
    rw [hshown.count] at h₁
    obtain rfl := Option.some.inj h₁
    by_cases hi : i < (fieldOf 16 60 img 0).toNat
    · rw [if_pos hi, along_mark_bind, along_embed_bind] at hrest ⊢
      refine ⟨trivial, bounded_embed _ _, fun r₂ h₂ => ?_⟩
      have hsect := hrest.2.2 r₂ h₂
      rw [hshown.type i hi] at h₂
      obtain rfl := Option.some.inj h₂
      by_cases htype : isRelTable (sectionAt img i)
      · obtain ⟨hent, hfew, hinfo⟩ := hb i hi htype
        have htype : (sectionAt img i).shType = shtRel ∨ (sectionAt img i).shType = shtRela := htype
        rw [if_pos htype, along_bind] at hsect ⊢
        refine ⟨kept_relLoop hi hent hfew hinfo _ _ _ hsect.1, fun r₃ h₃ => ?_⟩
        have hnext := hsect.2 r₃ h₃
        by_cases hfail : r₃.1 = elfLoadErr
        · rw [if_pos hfail]
          trivial
        · rw [if_neg hfail] at hnext ⊢
          exact kept_sectionLoop hb fuel (i + 1) _ hnext
      · have htype : ¬ ((sectionAt img i).shType = shtRel ∨ (sectionAt img i).shType = shtRela) :=
          htype
        rw [if_neg htype, along_embed_bind] at hsect ⊢
        exact ⟨bounded_embed _ _, fun r₃ h₃ => kept_sectionLoop hb fuel (i + 1) _ (hsect.2 r₃ h₃)⟩
    · rw [if_neg hi]
      trivial

/-- Tables that the relocations leave alone, and that are bounded in the image, are survived. -/
theorem kept_stage2 {s : σ} (hkept : TablesKept h hdr img s) (hb : tablesBounded img) :
    (elf64LoadStage2M hdr).Along (markExec h) relocSafe s := by
  refine bounded_stage2 ?_
  unfold TablesKept elf64LoadStage2M at hkept
  unfold elf64LoadStage2M
  rw [along_embed_bind] at hkept ⊢
  have hshown : TablesShown h hdr img s := by
    unfold elf64Sheader at hkept
    exact along_field (show 64 / 8 = 7 + 1 from rfl) ((along_bind _ _ _).mp hkept.1).1
  refine ⟨bounded_embed _ _, fun r hr => ?_⟩
  have hrest := hkept.2 r hr
  rw [hshown.start] at hr
  obtain rfl := Option.some.inj hr
  exact kept_sectionLoop hb _ _ _ hrest

/-- On every machine, from every state and for every file: the call survives just when, each time it
comes to the test of the loop over the entries, `sh_entsize` is not 0, each time it enters
`elf64_do_rela`, `sh_info` is less than `e_shnum`, and every table is left before the counter
wraps. Where the relocations leave the section headers alone, it is enough that the tables of the
image are bounded. -/
theorem relocation_survives_iff (h : (o : ElfOp) → σ → Option (o.Res × σ)) (hdr : BitVec 64) (s : σ) :
    (RelocSurvives h hdr s ↔ (elf64LoadStage2M hdr).Along (markExec h) (relocMeets h hdr) s) ∧
    ∀ img, tablesBounded img → TablesKept h hdr img s → RelocSurvives h hdr s := by
  have hagree : Agree h hdr (elf64LoadStage2M hdr) s := agree_stage2 s
  refine ⟨⟨fun hsurv => hagree.mp hsurv.safe, fun hmeets => survives_of_safe (hagree.mpr hmeets)⟩,
    fun img hbounded hkept => ?_⟩
  exact survives_of_safe (kept_stage2 hkept hbounded)

end Survive

/-! ## A file with one table -/

deriving instance DecidableEq for ElfOp

instance {σ : Type} (o : MarkOp ElfOp RelocMark) (s : σ) : Decidable (relocSafe o s) :=
  match o with
  | .op _ => inferInstanceAs (Decidable (_ ≠ _))
  | .mark (.deref _ _) => inferInstanceAs (Decidable (_ ∧ _))
  | .mark (.head _) | .mark (.entry _) | .mark (.next _) => .isTrue trivial

/-- An executable without segments, with a table of one relocation, of the type `R_AMD64_NONE`, for
the section `info`. -/
def tableFile (info entsize : BitVec 64) : Mm.Page := fun j =>
  ([0x00010102464C457F, 0, 0x00000001003E0002, 0, 64, 64, 0x0038004000000000, 0x0000000100400000,
    0x0000000400000000, 0, 0, 128, 24, info <<< 32, 8, entsize, 0, 0, 0] :
    List (BitVec 64)).getD j.toNat 0

/-- `tableFile 0 0` is accepted and its size divided by 0, `tableFile 1 24` is accepted and the
header of a section behind the last one looked at. -/
theorem table_not_survived :
    (∃ s', (elf64IsSupported fileAddr).exec (elfExec plainEnv) (fileState (tableFile 0 0)) =
      some (true, s')) ∧
    ¬ RelocSurvives (elfExec plainEnv) fileAddr (fileState (tableFile 0 0)) ∧
    (∃ s', (elf64IsSupported fileAddr).exec (elfExec plainEnv) (fileState (tableFile 1 24)) =
      some (true, s')) ∧
    ¬ RelocSurvives (elfExec plainEnv) fileAddr (fileState (tableFile 1 24)) := by
  refine ⟨exec_of_result (by decide +kernel), fun hs => ?_, exec_of_result (by decide +kernel),
    fun hs => ?_⟩
  · exact absurd hs.safe (by decide +kernel)
  · exact absurd hs.safe (by decide +kernel)

end OS64.Elf
