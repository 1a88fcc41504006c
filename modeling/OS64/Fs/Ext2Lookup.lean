import OS64.Fs.Ext2Records

/-!
# Looking a name up

`ext2_finddir` compares the name it is asked for with each record by `strncmp`, over the
length of the record's name. A record whose name is a beginning of the other one compares
equal, and so does a deleted record: the search breaks off at the first of them, whatever
comes later. `find_exact_iff` says that a lookup is exact when that first record is live
and has the name itself.
-/

namespace OS64.Fs

open OS64.Lib
open OS64.Lib.ByteMem

/-- The lookup returns a live record of this name, and nothing when there is none. -/
def FindsName (fresh : Fresh) (node : Ext2Node) (rs : List DirRecord) (name : CString) : Prop :=
  ∃ res, Returns (fun fuel => ext2Finddir fuel fresh (some node) name) (.ok res) ∧
    (∀ v, res = some v → ∃ r, r ∈ rs ∧ r.live ∧ r.name = name.bytes ∧ v.name = name.bytes ∧
      v.inode = r.inode.setWidth 64) ∧
    (res = none → ∀ r, r ∈ rs → r.live → r.name ≠ name.bytes)

/-- The first record that `strncmp` does not tell from the name is live and has it. -/
def findMeets (rs : List DirRecord) (name : CString) : Prop :=
  ∀ r, rs.find? (fun r => sameName name.bytes r.name) = some r → r.live ∧ r.name = name.bytes

section Search

variable {d : DirBuffer} {size : Nat}

/-- What is looked at of a stored record lies in it. -/
theorem recExtent_le {m : ByteMem} {p : Nat} {r : DirRecord} (h : RecordAt m p r)
    (hname : r.name ≠ []) : recExtent m p ≤ r.size := by
  have hlength := recordAt_length h
  have hpos := List.length_pos_iff.mpr hname
  have hexamined := examined_le r.name
  have hfits := r.fits
  unfold recExtent
  rw [if_neg (by omega), h.name]
  omega

/-- A record without a name compares equal to every name. -/
theorem sameName_nil (s : List (BitVec 8)) : sameName s [] = true := by
  cases s <;> rfl

/-- The search breaks off at the first record that compares equal, if that has a name. -/
theorem finddirLoop_spec (hcap : size ≤ d.cap) (name : CString) {rs : List DirRecord} :
    ∀ {p : Nat}, Stored d.data p rs size →
      ((∀ r, rs.find? (fun r => sameName name.bytes r.name) = some r → r.name = []) →
        ∀ fuel, rs.length < fuel → finddirLoop d size name fuel p = .ok none) ∧
      ∀ r, rs.find? (fun r => sameName name.bytes r.name) = some r → r.name ≠ [] →
        ∃ q, RecordAt d.data q r ∧ q + recExtent d.data q ≤ d.cap ∧
          ∀ fuel, rs.length < fuel → finddirLoop d size name fuel p = .ok (some q) := by
  induction rs with
  | nil =>
    intro p h
    have hend : ¬ p < size := Nat.not_lt.mpr (Nat.le_of_eq h.symm)
    refine ⟨fun _ fuel hfuel => ?_, fun r hr => absurd hr.symm (Option.some_ne_none r)⟩
    obtain ⟨fuel, rfl⟩ := Nat.exists_eq_add_of_le' (Nat.lt_of_le_of_lt (Nat.zero_le _) hfuel)
    rw [finddirLoop_step name fuel fun hp => absurd hp hend, if_neg fun hall => hend hall.1]
  | cons r rs ih =>
    intro p h
    have hfits := r.fits
    have hrest := stored_le h.2
    rw [List.find?_cons]
    by_cases hname : r.name = []
    · -- the record ends the search
      rw [hname, sameName_nil]
      refine ⟨fun _ fuel hfuel => ?_, fun r' hfind hnamed => ?_⟩
      · obtain ⟨fuel, rfl⟩ := Nat.exists_eq_add_of_le' (Nat.lt_of_le_of_lt (Nat.zero_le _) hfuel)
        have hlength : recLength d.data p = 0 := by
          rw [recordAt_length h.1, hname]
          rfl
        have hextent : p < size → p + recExtent d.data p ≤ d.cap := by
          intro _
          rw [recExtent, if_pos hlength]
          omega
        rw [finddirLoop_step name fuel hextent, if_neg fun hall => hall.2 hlength]
      · cases hfind
        exact absurd hname hnamed
    · have hextent := recExtent_le h.1 hname
      have hin : p < size ∧ recLength d.data p ≠ 0 := by
        refine ⟨by omega, ?_⟩
        rw [recordAt_length h.1]
        exact Nat.ne_of_gt (List.length_pos_iff.mpr hname)
      -- one round is one record
      have hstep : ∀ fuel, finddirLoop d size name (fuel + 1) p =
          if sameName name.bytes r.name then .ok (some p)
          else finddirLoop d size name fuel (p + r.size) := by
        intro fuel
        rw [finddirLoop_step name fuel fun _ => by omega, if_pos hin, h.1.name, h.1.size]
      obtain ⟨hnone, hsome⟩ := ih h.2
      cases hsame : sameName name.bytes r.name with
      | true =>
        refine ⟨fun hfind => absurd (hfind r rfl) hname, fun r' hfind _ => ?_⟩
        cases hfind
        refine ⟨p, h.1, by omega, fun fuel hfuel => ?_⟩
        obtain ⟨fuel, rfl⟩ := Nat.exists_eq_add_of_le' (Nat.lt_of_le_of_lt (Nat.zero_le _) hfuel)
        rw [hstep, hsame]
        rfl
      | false =>
        refine ⟨fun hfind fuel hfuel => ?_, fun r' hfind hnamed => ?_⟩
        · obtain ⟨fuel, rfl⟩ := Nat.exists_eq_add_of_le' (Nat.lt_of_le_of_lt (Nat.zero_le _) hfuel)
          rw [hstep, hsame]
          exact hnone hfind fuel (Nat.lt_of_succ_lt_succ hfuel)
        · obtain ⟨q, hat, hext, hloop⟩ := hsome r' hfind hnamed
          refine ⟨q, hat, hext, fun fuel hfuel => ?_⟩
          obtain ⟨fuel, rfl⟩ := Nat.exists_eq_add_of_le' (Nat.lt_of_le_of_lt (Nat.zero_le _) hfuel)
          rw [hstep, hsame]
          exact hloop fuel (Nat.lt_of_succ_lt_succ hfuel)

end Search

section Lookup

variable {fresh : Fresh} {node : Ext2Node} {i : ByteMem} {rs : List DirRecord}

/-- What a lookup returns: the record that the search breaks off at. -/
theorem ext2Finddir_spec (hi : ext2ReadInode fresh node = .ok i) (hdir : Directory node i rs)
    (hblocks : (ext2Size i).toNat ≤ 12 * blockBytes node.reserved) (hlow : DirLow node i)
    (name : CString) :
    ((∀ r, rs.find? (fun r => sameName name.bytes r.name) = some r → r.name = []) →
      Returns (fun fuel => ext2Finddir fuel fresh (some node) name) (.ok none)) ∧
    ∀ r, rs.find? (fun r => sameName name.bytes r.name) = some r → r.name ≠ [] →
      ∃ v, Returns (fun fuel => ext2Finddir fuel fresh (some node) name) (.ok (some v)) ∧
        v.name = strncpyList r.name ∧ v.inode = r.inode.setWidth 64 := by
  have hcap := dirBuffer_cap hlow fresh
  have hstored : Stored (dirBuffer fresh node i).data 0 rs (ext2Size i).toNat :=
    stored_congr hdir.stored fun x _ hx =>
      dirBuffer_apply hdir.covered hlow fresh hx (Nat.lt_of_lt_of_le hx hblocks)
  obtain ⟨hnone, hsome⟩ := finddirLoop_spec (by omega) name hstored
  constructor
  · intro hfind
    refine ⟨rs.length + 1, fun fuel hfuel => ?_⟩
    dsimp only
    rw [ext2Finddir_eq hi, hnone hfind fuel (Nat.lt_of_succ_le hfuel)]
    rfl
  · intro r hfind hnamed
    obtain ⟨q, hat, hext, hloop⟩ := hsome r hfind hnamed
    have hlength : recLength (dirBuffer fresh node i).data q ≠ 0 := by
      rw [recordAt_length hat]
      exact Nat.ne_of_gt (List.length_pos_iff.mpr hnamed)
    obtain ⟨v, hv, hname, hinode⟩ := finddirNode_ok (fun n => fresh (n + 3)) (indInGrp_of_read hi)
      hext hlength
    refine ⟨v, ⟨rs.length + 1, fun fuel hfuel => ?_⟩, ?_, ?_⟩
    · dsimp only
      rw [ext2Finddir_eq hi, hloop fuel (Nat.lt_of_succ_le hfuel)]
      show finddirFound _ fresh node (some q) = _
      rw [finddirFound, hv]
      rfl
    · rw [hname, hat.name]
    · rw [hinode, hat.inode]
      exact BitVec.ofNat_toNat _ _

/-- An exact lookup breaks off at a record that is live and has the name. -/
theorem meets_of_finds (hi : ext2ReadInode fresh node = .ok i) (hdir : Directory node i rs)
    (hblocks : (ext2Size i).toNat ≤ 12 * blockBytes node.reserved)
    (hnames : ∀ r ∈ rs, r.name ≠ []) (hlow : DirLow node i) {name : CString}
    (h : FindsName fresh node rs name) : findMeets rs name := by
  intro r hfind
  obtain ⟨res, hret, hsome, -⟩ := h
  obtain ⟨v, hv, hname, hinode⟩ := (ext2Finddir_spec hi hdir hblocks hlow name).2 r hfind
    (hnames r (List.mem_of_find?_eq_some hfind))
  have hres : res = some v := by
    have hsame := returns_unique hret hv
    cases hsame
    rfl
  obtain ⟨r', -, hlive, -, hname', hinode'⟩ := hsome v hres
  constructor
  · -- the node has the inode number of a live record
    intro h0
    refine hlive ?_
    have hwide : r'.inode.setWidth 64 = (0 : BitVec 32).setWidth 64 := by
      rw [← hinode', hinode, h0]
    have hnarrow := congrArg (BitVec.setWidth 32) hwide
    rw [BitVec.setWidth_setWidth_of_le _ (by decide), BitVec.setWidth_eq] at hnarrow
    exact hnarrow
  · have hzero : (0 : BitVec 8) ∉ strncpyList r.name := by
      rw [← hname, hname']
      exact name.nonzero
    rw [← eq_of_strncpyList hzero, ← hname, hname']

/-- And a lookup that does is exact. -/
theorem finds_of_meets (hi : ext2ReadInode fresh node = .ok i) (hdir : Directory node i rs)
    (hblocks : (ext2Size i).toNat ≤ 12 * blockBytes node.reserved)
    (hnames : ∀ r ∈ rs, r.name ≠ []) (hlow : DirLow node i) {name : CString}
    (hmeets : findMeets rs name) : FindsName fresh node rs name := by
  obtain ⟨hnone, hsome⟩ := ext2Finddir_spec hi hdir hblocks hlow name
  cases hfind : rs.find? (fun r => sameName name.bytes r.name) with
  | none =>
    refine ⟨none, hnone fun r hr => absurd (hfind.symm.trans hr).symm (Option.some_ne_none r),
      fun v hv => absurd hv.symm (Option.some_ne_none v), ?_⟩
    intro _ r hr _ hsame
    have hdiff := List.find?_eq_none.mp hfind r hr
    rw [hsame] at hdiff
    exact hdiff (sameName_self name.nonzero)
  | some r =>
    obtain ⟨v, hv, hname, hinode⟩ := hsome r hfind (hnames r (List.mem_of_find?_eq_some hfind))
    obtain ⟨hlive, hsame⟩ := hmeets r hfind
    refine ⟨some v, hv, fun v' hv' => ?_, fun hno => absurd hno (Option.some_ne_none v)⟩
    cases hv'
    refine ⟨r, List.mem_of_find?_eq_some hfind, hlive, hsame, ?_, hinode⟩
    rw [hname, hsame]
    exact strncpyList_of_nonzero name.nonzero

/-- Below 4 GiB, a lookup in the directory on the volume is exact just when the first record that
`strncmp` does not tell from the name is live and has it. -/
theorem find_exact_iff (hnode : InodeNode node) (hdir : Directory node (nodeInode node) rs)
    (hblocks : (ext2Size (nodeInode node)).toNat ≤ 12 * blockBytes node.reserved)
    (hnames : ∀ r ∈ rs, r.name ≠ []) (name : CString) :
    InodeLow node ∧ DirLow node (nodeInode node) →
      (FindsName fresh node rs name ↔ findMeets rs name) := by
  intro h
  obtain ⟨i, hi, hsize, hdir', hlow⟩ := directory_read hnode h.1 hdir h.2 fresh
  rw [← hsize] at hblocks
  exact ⟨meets_of_finds hi hdir' hblocks hnames hlow, finds_of_meets hi hdir' hblocks hnames hlow⟩

end Lookup

/-- The records `a` and `ab`. -/
def prefixRecords : List DirRecord :=
  [⟨5, 12, [0x61], Nat.le_of_ble_eq_true rfl⟩, ⟨6, 1012, [0x61, 0x62], Nat.le_of_ble_eq_true rfl⟩]

/-- A block with them. -/
def prefixBlock : ByteMem := fun a =>
  if a = 0 then 5 else if a = 4 then 12 else if a = 6 then 1 else if a = 8 then 0x61
  else if a = 12 then 6 else if a = 16 then 0xF4 else if a = 17 then 3 else if a = 18 then 2
  else if a = 20 then 0x61 else if a = 21 then 0x62 else 0

theorem prefixBlock_stored : Stored prefixBlock 0 prefixRecords 1024 :=
  ⟨⟨by decide, by decide, by decide⟩, ⟨by decide, by decide, by decide⟩, rfl⟩

theorem prefixRecords_names : ∀ r ∈ prefixRecords, r.name ≠ [] := by
  intro r hr
  rcases List.mem_cons.mp hr with h | h
  · rw [h]
    decide
  · rw [List.mem_singleton.mp h]
    decide

/-- The names `a` and `ab`. -/
def nameA : CString := ⟨[0x61], by decide⟩

def nameAb : CString := ⟨[0x61, 0x62], List.not_mem_cons_of_ne_of_not_mem (by decide) (by decide)⟩

/-- The directory with them. -/
theorem prefixDir_directory :
    Directory (oneBlockDir prefixBlock) (nodeInode (oneBlockDir prefixBlock)) prefixRecords :=
  directory_congr (oneBlockDir_record prefixBlock)
    (oneBlockDir_directory prefixBlock prefixBlock_stored)

theorem prefixDir_size : (ext2Size (nodeInode (oneBlockDir prefixBlock))).toNat = 1024 := by
  rw [ext2Size_congr (oneBlockDir_record prefixBlock)]
  decide

theorem prefixDir_low : InodeLow (oneBlockDir prefixBlock) ∧
    DirLow (oneBlockDir prefixBlock) (nodeInode (oneBlockDir prefixBlock)) :=
  ⟨oneBlockDir_inodeLow prefixBlock,
    dirLow_congr (oneBlockDir_record prefixBlock) (oneBlockDir_low prefixBlock)⟩

/-- The lookup of `a` is exact. -/
theorem find_exact_first :
    FindsName (fun _ _ => 0) (oneBlockDir prefixBlock) prefixRecords nameA := by
  refine (find_exact_iff (oneBlockDir_node prefixBlock) prefixDir_directory ?_
    prefixRecords_names nameA prefixDir_low).mpr fun r hr => ?_
  · rw [prefixDir_size]
    decide
  · cases hr
    exact ⟨by decide, rfl⟩

/-- The lookup of `ab` returns the node of `a`. -/
theorem prefix_found :
    InodeNode (oneBlockDir prefixBlock) ∧
      Directory (oneBlockDir prefixBlock) (nodeInode (oneBlockDir prefixBlock)) prefixRecords ∧
      ¬ FindsName (fun _ _ => 0) (oneBlockDir prefixBlock) prefixRecords nameAb := by
  refine ⟨oneBlockDir_node prefixBlock, prefixDir_directory, fun h => ?_⟩
  have hmeets := meets_of_finds (oneBlockDir_inode prefixBlock)
    (oneBlockDir_directory prefixBlock prefixBlock_stored) (by decide) prefixRecords_names
    (oneBlockDir_low prefixBlock) h
  have hfirst := hmeets ⟨5, 12, [0x61], Nat.le_of_ble_eq_true rfl⟩ rfl
  exact absurd hfirst.2 (by decide)

end OS64.Fs
