import OS64.Kernel.TaskRun
import OS64.Lib.Ring

/-!
# The ring of tasks

Every new task goes into the ring behind `curr[0]`, wherever ticks have moved that in
the meantime, and nothing else touches the links. `task_ring` says that the tasks
created so far are one ring through all of them, and `round_robin` what a processor
makes of it that has the ring to itself: it resumes the tasks in the order of the
links, each with the frame it was last switched out with. `task_switch_picks_next` is
about one tick in any state that calls lead to, the states of the tasks being whatever
they may: the search goes round the ring at most once.
-/

namespace OS64.Kernel

open OS64.Lib

/-- The link from task to task. -/
def Tasks.next (s : Tasks) (a : Addr) : Addr := (s.heap a).next

/-- The tasks created so far form one ring. -/
def TaskRing (s : TaskRun) : Prop := ∃ l, l.Perm s.created ∧ Ring s.sys.next l

/-- A new task behind `curr[0]` keeps the ring. -/
theorem inserted_ring {s : TaskRun} (hinv : TaskInv s) (hring : TaskRing s) {sys' : Tasks}
    {a : Addr} (ha : freshBlock s a)
    (hins : Inserted s.sys.heap sys'.heap (s.sys.curr 0) a) :
    TaskRing ⟨sys', a :: s.created⟩ := by
  obtain ⟨l, hperm, hl⟩ := hring
  have hp : s.sys.curr 0 ∈ l := hperm.mem_iff.mpr (hinv.curr_mem 0 hinv.curr_zero)
  have hnew : a ∉ l := fun hmem => ha.2 (hperm.mem_iff.mp hmem)
  have hprev : sys'.next (s.sys.curr 0) = a := by
    unfold Tasks.next
    rw [hins.prev]
  have hothers : ∀ b ∈ l, b ≠ s.sys.curr 0 → sys'.next b = s.sys.next b := by
    intro b hb hne
    unfold Tasks.next
    rw [hins.others b (fun hba => hnew (hba ▸ hb)) hne]
  obtain ⟨l', hperm', hl'⟩ := hl.insert hp hnew hprev hins.new_next hothers
  exact ⟨l', hperm'.trans (hperm.cons a), hl'⟩

theorem taskStep_ring {ok : Tasks → Fin maxCpuNr → Prop} {s s' : TaskRun} (hinv : TaskInv s)
    (hring : TaskRing s) (hstep : TaskStep ok s s') : TaskRing s' := by
  cases hstep with
  | initCpu id a hid ha =>
    exact inserted_ring hinv hring ha (taskInitCpu_spec s.sys hid (fresh_ne_curr hinv ha 0)).2
  | fork a r ha =>
    exact inserted_ring hinv hring ha (taskFork_spec s.sys r (fresh_ne_curr hinv ha 0)).2
  | tick id rAddr r fuel ret sys' hok htick =>
    obtain ⟨l, hperm, hl⟩ := hring
    exact ⟨l, hperm, hl.congr fun b _ => taskSwitch_next htick b⟩
  | other heap hsame =>
    obtain ⟨l, hperm, hl⟩ := hring
    refine ⟨l, hperm, hl.congr fun b hb => ?_⟩
    show (heap b).next = (s.sys.heap b).next
    rw [hsame b (hperm.mem_iff.mp hb)]

/-- In every state of every run the links lead from each task through every task
created so far once and back, and each processor that has a task has one of these. -/
theorem task_ring {s₀ : Tasks} {a : Addr} {s : TaskRun} (hcurr : s₀.curr = fun _ => 0) (ha : a ≠ 0)
    (hrun : Relation.ReflTransGen (TaskStep fun _ _ => True) (taskStart s₀ a) s) :
    s.created.Nodup ∧
    (∀ b ∈ s.created, (List.iterate s.sys.next b s.created.length).Perm s.created ∧
      s.sys.next^[s.created.length] b = b) ∧
    ∀ id, s.sys.curr id ≠ 0 → s.sys.curr id ∈ s.created := by
  have hstart : TaskRing (taskStart s₀ a) :=
    ⟨[a], .refl _, ring_singleton (taskInit_spec s₀ a).2⟩
  obtain ⟨hinv, l, hperm, hl⟩ := run_invariant (fun s => TaskInv s ∧ TaskRing s)
    (fun s s' h hstep => ⟨taskStep_inv h.1 hstep, taskStep_ring h.1 h.2 hstep⟩) hrun
    ⟨taskStart_inv hcurr ha, hstart⟩
  refine ⟨hperm.nodup_iff.mp hl.nodup, fun b hb => ?_, hinv.curr_mem⟩
  obtain ⟨hvisits, hback⟩ := hl.visits (hperm.mem_iff.mpr hb)
  rw [← hperm.length_eq]
  exact ⟨hvisits.trans hperm, hback⟩

/-- `task_ring` after `task_init` and `task_init_cpu(1)`. -/
theorem task_ring_two :
    twoCpus.created.Nodup ∧
    (∀ b ∈ twoCpus.created, (List.iterate twoCpus.sys.next b 2).Perm [0x2000, 0x1000] ∧
      twoCpus.sys.next^[2] b = b) ∧
    ∀ id, twoCpus.sys.curr id ≠ 0 → twoCpus.sys.curr id ∈ twoCpus.created :=
  task_ring rfl (by decide) (twoCpus_run _)

/-! ## The search of a tick -/

/-- A call, or the states of the tasks overwritten in any way. -/
inductive StateStep : TaskRun → TaskRun → Prop
  | call {s s' : TaskRun} (h : TaskStep (fun _ _ => True) s s') : StateStep s s'
  | states (s : TaskRun) (state : Addr → BitVec 8) :
      StateStep s ⟨{ s.sys with heap := fun a => { s.sys.heap a with state := state a } }, s.created⟩

theorem stateStep_ring {s s' : TaskRun} (h : TaskInv s ∧ TaskRing s) (hstep : StateStep s s') :
    TaskInv s' ∧ TaskRing s' := by
  cases hstep with
  | call hcall => exact ⟨taskStep_inv h.1 hcall, taskStep_ring h.1 h.2 hcall⟩
  | states state =>
    obtain ⟨l, hperm, hl⟩ := h.2
    exact ⟨h.1.congr (fun _ _ => rfl) fun _ => rfl, l, hperm, hl.congr fun _ _ => rfl⟩

theorem stateRun_ring {s₀ : Tasks} {a : Addr} {s : TaskRun} (hcurr : s₀.curr = fun _ => 0)
    (ha : a ≠ 0) (hrun : Relation.ReflTransGen StateStep (taskStart s₀ a) s) :
    TaskInv s ∧ TaskRing s := by
  have hstart : TaskRing (taskStart s₀ a) :=
    ⟨[a], .refl _, ring_singleton (taskInit_spec s₀ a).2⟩
  exact run_invariant (fun s => TaskInv s ∧ TaskRing s) (fun _ _ => stateStep_ring) hrun
    ⟨taskStart_inv hcurr ha, hstart⟩

/-- The tasks behind `a` in the order of the ring of `n` tasks; `a` itself comes last. -/
def Tasks.behind (s : Tasks) (n : Nat) (a : Addr) : List Addr := List.iterate s.next (s.next a) n

/-- Behind a task of the ring come all tasks, the task itself at the end. -/
theorem behind_spec {s : TaskRun} (hring : TaskRing s) {a : Addr} (ha : a ∈ s.created) :
    (s.sys.behind s.created.length a).Perm s.created ∧
    (s.sys.behind s.created.length a).getLast? = some a := by
  obtain ⟨l, hperm, hl⟩ := hring
  have hmem : a ∈ l := hperm.mem_iff.mpr ha
  have hlen : 0 < l.length := List.length_pos_of_mem hmem
  obtain ⟨k, hk⟩ : ∃ k, l.length = k + 1 := ⟨l.length - 1, by omega⟩
  unfold Tasks.behind
  rw [← hperm.length_eq]
  refine ⟨(hl.visits (hl.next_mem hmem)).1.trans hperm, ?_⟩
  have hback := (hl.visits hmem).2
  rw [hk, Function.iterate_succ_apply] at hback
  rw [hk, List.iterate_add]
  show (_ ++ [_]).getLast? = _
  rw [List.getLast?_concat, hback]

/-- What a tick looks for behind the outgoing task `cur`, which it has just marked active. -/
def pickable (s : Tasks) (cur b : Addr) : Bool := b == cur || (s.heap b).state == taskActive

/-- A call of `task_switch` returns in every state that calls lead to, whatever the states
of the tasks are: the search takes at most as many steps as there are tasks. It stops at
the first task behind the outgoing one that is active, the outgoing one being the last to
be asked and active too. -/
theorem task_switch_picks_next {s₀ : Tasks} {a : Addr} {s : TaskRun}
    (hcurr : s₀.curr = fun _ => 0) (ha : a ≠ 0)
    (hrun : Relation.ReflTransGen StateStep (taskStart s₀ a) s) (id : Fin maxCpuNr) (rAddr : Addr)
    (r : AllRegs) :
    ∃ ret sys', (∀ fuel, s.created.length ≤ fuel →
        taskSwitch fuel s.sys id rAddr r = some (ret, sys')) ∧
      (s.sys.curr id ≠ 0 → (s.sys.heap (s.sys.curr id)).state ≠ taskStarting →
        (s.sys.behind s.created.length (s.sys.curr id)).Perm s.created ∧
        (s.sys.behind s.created.length (s.sys.curr id)).getLast? = some (s.sys.curr id) ∧
        (s.sys.behind s.created.length (s.sys.curr id)).find? (pickable s.sys (s.sys.curr id)) =
          some (sys'.curr id) ∧
        ret = regsAddr (sys'.curr id) ∧
        ((∀ b ∈ s.created, b ≠ s.sys.curr id → (s.sys.heap b).state ≠ taskActive) →
          sys'.curr id = s.sys.curr id)) := by
  obtain ⟨hinv, hring⟩ := stateRun_ring hcurr ha hrun
  by_cases h0 : s.sys.curr id = 0
  · exact ⟨rAddr, s.sys, fun fuel _ => by simp [taskSwitch, h0], fun hne => absurd h0 hne⟩
  · by_cases hst : (s.sys.heap (s.sys.curr id)).state = taskStarting
    · exact ⟨_, _, fun fuel _ => by
        simp only [taskSwitch]
        rw [if_pos h0, if_pos hst], fun _ hne => absurd hst hne⟩
    · obtain ⟨hperm, hlast⟩ := behind_spec hring (hinv.curr_mem id h0)
      -- The outgoing task ends the search if nothing before it does.
      have hself : pickable s.sys (s.sys.curr id) (s.sys.curr id) = true := by simp [pickable]
      have hfind : ((s.sys.behind s.created.length (s.sys.curr id)).find?
          (pickable s.sys (s.sys.curr id))).isSome := by
        rw [List.find?_isSome]
        exact ⟨_, List.mem_of_getLast? hlast, hself⟩
      obtain ⟨t, ht⟩ := Option.isSome_iff_exists.mp hfind
      have hwalk : walk s.sys.next (pickable s.sys (s.sys.curr id)) s.created.length
          (s.sys.curr id) = some t := (walk_eq_find _ _).trans ht
      refine ⟨regsAddr t, (saveCurrent s.sys (s.sys.curr id) r).setCurr id t, ?_, fun _ _ => ?_⟩
      · intro fuel hfuel
        refine taskSwitch_of_nextActive h0 hst ?_
        rw [nextActive_eq_walk]
        exact walk_more hfuel hwalk
      · have hcur : ((saveCurrent s.sys (s.sys.curr id) r).setCurr id t).curr id = t := by
          simp [Tasks.setCurr]
        rw [hcur]
        refine ⟨hperm, hlast, ht, rfl, fun hothers => ?_⟩
        by_contra hne
        have hpick := List.find?_some ht
        have hmem : t ∈ s.created := hperm.mem_iff.mp (List.mem_of_find?_eq_some ht)
        simp [pickable, hne, hothers t hmem hne] at hpick

/-- Two processors, a tick on the first; its task is the only active one then. -/
theorem task_switch_picks_next_two :
    ∃ ret sys', (∀ fuel, 2 ≤ fuel → taskSwitch fuel twoCpus.sys 0 0 .zero = some (ret, sys')) ∧
      (twoCpus.sys.curr 0 ≠ 0 → (twoCpus.sys.heap (twoCpus.sys.curr 0)).state ≠ taskStarting →
        (twoCpus.sys.behind 2 (twoCpus.sys.curr 0)).Perm twoCpus.created ∧
        (twoCpus.sys.behind 2 (twoCpus.sys.curr 0)).getLast? = some (twoCpus.sys.curr 0) ∧
        (twoCpus.sys.behind 2 (twoCpus.sys.curr 0)).find?
          (pickable twoCpus.sys (twoCpus.sys.curr 0)) = some (sys'.curr 0) ∧
        ret = regsAddr (sys'.curr 0) ∧
        ((∀ b ∈ twoCpus.created, b ≠ twoCpus.sys.curr 0 →
          (twoCpus.sys.heap b).state ≠ taskActive) → sys'.curr 0 = twoCpus.sys.curr 0)) :=
  task_switch_picks_next rfl (by decide)
    ((twoCpus_run _).lift id fun _ _ h => .call h) 0 0 .zero

/-! ## Round robin -/

/-- The `all_regs` at the address `a`, which is the field `r` of a task. -/
def Tasks.frameAt (s : Tasks) (a : Addr) : AllRegs := (s.heap (a - 8)).r

theorem frameAt_regsAddr (s : Tasks) (a : Addr) : s.frameAt (regsAddr a) = (s.heap a).r := by
  unfold Tasks.frameAt regsAddr
  rw [BitVec.add_sub_cancel]

/-- The calls of `task_switch` on one processor, and for the record the frame with which
each task was last switched out, the tasks resumed so far, and for each resumption the
frame handed back and the one due. -/
structure SwitchRun where
  sys : Tasks
  saved : Addr → AllRegs
  resumed : List Addr
  handed : List (AllRegs × AllRegs)

/-- The record before the first call: every task is due its initial frame. -/
def switchStart (s : Tasks) : SwitchRun := ⟨s, fun a => (s.heap a).r, [], []⟩

/-- One call of `task_switch` on processor `id` with the frame `call.2` at `call.1`. -/
def switchCall (fuel : Nat) (id : Fin maxCpuNr) (s : SwitchRun) (call : Addr × AllRegs) :
    Option SwitchRun :=
  match taskSwitch fuel s.sys id call.1 call.2 with
  | none => none
  | some (ret, sys') =>
    let saved' := fun a => if a = s.sys.curr id then call.2 else s.saved a
    some
      { sys := sys'
        saved := saved'
        resumed := s.resumed ++ [sys'.curr id]
        handed := s.handed ++ [(sys'.frameAt ret, saved' (sys'.curr id))] }

/-- The tasks of the ring `l` are active but for the current one, which may be running,
and each but the current one holds the frame it is due. -/
structure SwitchInv (id : Fin maxCpuNr) (l : List Addr) (s : SwitchRun) : Prop where
  ring : Ring s.sys.next l
  null_free : 0 ∉ l
  cur_mem : s.sys.curr id ∈ l
  cur_state : (s.sys.heap (s.sys.curr id)).state = taskRunning ∨
    (s.sys.heap (s.sys.curr id)).state = taskActive
  active : ∀ a ∈ l, a ≠ s.sys.curr id → (s.sys.heap a).state = taskActive
  frames : ∀ a ∈ l, a ≠ s.sys.curr id → (s.sys.heap a).r = s.saved a

/-- A call resumes the next task of the ring with the frame it is due. -/
theorem switchCall_step {id : Fin maxCpuNr} {l : List Addr} {s : SwitchRun} (h : SwitchInv id l s)
    (fuel : Nat) (call : Addr × AllRegs) :
    ∃ s' f, switchCall (fuel + 1) id s call = some s' ∧ SwitchInv id l s' ∧
      s'.sys.next = s.sys.next ∧ s'.sys.curr id = s.sys.next (s.sys.curr id) ∧
      s'.resumed = s.resumed ++ [s.sys.next (s.sys.curr id)] ∧
      s'.handed = s.handed ++ [(f, f)] := by
  have h0 : s.sys.curr id ≠ 0 := fun hnull => h.null_free (hnull ▸ h.cur_mem)
  have hst : (s.sys.heap (s.sys.curr id)).state ≠ taskStarting := by
    rcases h.cur_state with hst | hst <;> rw [hst] <;> simp [taskRunning, taskActive, taskStarting]
  have hmem : s.sys.next (s.sys.curr id) ∈ l := h.ring.next_mem h.cur_mem
  -- The search stops at once: the next task is active, be it the saved one itself.
  have hnext : nextActive (saveCurrent s.sys (s.sys.curr id) call.2) (fuel + 1) (s.sys.curr id) =
      some (s.sys.next (s.sys.curr id)) := by
    rw [nextActive_eq_walk]
    refine if_pos ?_
    by_cases heq : s.sys.next (s.sys.curr id) = s.sys.curr id
    · simp [show (s.sys.heap (s.sys.curr id)).next = s.sys.curr id from heq]
    · have hact := h.active _ hmem heq
      simp [show (s.sys.heap (s.sys.heap (s.sys.curr id)).next).state = taskActive from hact]
  have htick : taskSwitch (fuel + 1) s.sys id call.1 call.2 = _ :=
    taskSwitch_of_nextActive h0 hst hnext
  have hheap : ∀ a, (saveCurrent s.sys (s.sys.curr id) call.2).heap a =
      if a = s.sys.curr id then
        { s.sys.heap (s.sys.curr id) with r := call.2, state := taskActive }
      else s.sys.heap a := fun a => rfl
  have hnexts : ∀ a, (saveCurrent s.sys (s.sys.curr id) call.2).next a = s.sys.next a :=
    saveCurrent_next s.sys (s.sys.curr id) call.2
  have hframe : ∀ a ∈ l, ((saveCurrent s.sys (s.sys.curr id) call.2).heap a).r =
      if a = s.sys.curr id then call.2 else s.saved a := by
    intro a ha
    rw [hheap a]
    by_cases hac : a = s.sys.curr id
    · rw [if_pos hac, if_pos hac]
    · rw [if_neg hac, if_neg hac]
      exact h.frames a ha hac
  have hactive : ∀ a ∈ l, ((saveCurrent s.sys (s.sys.curr id) call.2).heap a).state = taskActive := by
    intro a ha
    rw [hheap a]
    by_cases hac : a = s.sys.curr id
    · rw [if_pos hac]
    · rw [if_neg hac]
      exact h.active a ha hac
  unfold switchCall
  rw [htick]
  refine ⟨_, if s.sys.next (s.sys.curr id) = s.sys.curr id then call.2
    else s.saved (s.sys.next (s.sys.curr id)), rfl, ⟨?_, h.null_free, ?_, ?_, ?_, ?_⟩,
    funext hnexts, ?_, ?_, ?_⟩
  · exact h.ring.congr fun a _ => hnexts a
  · simpa [Tasks.setCurr] using hmem
  · right
    simpa [Tasks.setCurr] using hactive _ hmem
  · intro a ha _
    exact hactive a ha
  · intro a ha _
    exact hframe a ha
  · simp [Tasks.setCurr]
  · simp [Tasks.setCurr]
  · rw [frameAt_regsAddr]
    simp [Tasks.setCurr, hframe _ hmem]

/-- What a sequence of calls resumes, and with which frames. -/
theorem switchCalls_run {id : Fin maxCpuNr} {l : List Addr} (fuel : Nat)
    (calls : List (Addr × AllRegs)) {s : SwitchRun} (h : SwitchInv id l s) :
    ∃ t, calls.foldlM (switchCall (fuel + 1) id) s = some t ∧
      t.resumed = s.resumed ++ List.iterate s.sys.next (s.sys.next (s.sys.curr id)) calls.length ∧
      ∀ p ∈ t.handed, p ∈ s.handed ∨ p.1 = p.2 := by
  induction calls generalizing s with
  | nil => exact ⟨s, rfl, by simp [List.iterate], fun p hp => Or.inl hp⟩
  | cons call calls ih =>
    obtain ⟨s', f, hcall, hinv, hnext, hcur, hresumed, hhanded⟩ := switchCall_step h fuel call
    obtain ⟨t, hrun, hres, hframes⟩ := ih hinv
    refine ⟨t, ?_, ?_, ?_⟩
    · rw [List.foldlM_cons, hcall]
      exact hrun
    · rw [hres, hresumed, hnext, hcur, List.append_assoc]
      rfl
    · intro p hp
      rcases hframes p hp with hp | hp
      · rw [hhanded] at hp
        rcases List.mem_append.mp hp with hp | hp
        · exact Or.inl hp
        · rw [List.mem_singleton.mp hp]
          exact Or.inr rfl
      · exact Or.inr hp

/-- On a processor that has a ring of tasks to itself, all of them active with a saved
frame but for the current one, which may be running, every sequence of calls of
`task_switch` resumes the tasks in the order of the ring. As many consecutive calls as
there are tasks resume each of them once, and each resumption hands back the frame of
the call that last switched the task out, or its initial frame. -/
theorem round_robin {s : Tasks} {id : Fin maxCpuNr} {l : List Addr} (hring : Ring s.next l)
    (hnull : 0 ∉ l) (hcur : s.curr id ∈ l)
    (hstate : (s.heap (s.curr id)).state = taskRunning ∨ (s.heap (s.curr id)).state = taskActive)
    (hothers : ∀ a ∈ l, a ≠ s.curr id → (s.heap a).state = taskActive) (fuel : Nat)
    (calls : List (Addr × AllRegs)) :
    ∃ t, calls.foldlM (switchCall (fuel + 1) id) (switchStart s) = some t ∧
      t.resumed = List.iterate s.next (s.next (s.curr id)) calls.length ∧
      (∀ i, i + l.length ≤ calls.length → ((t.resumed.drop i).take l.length).Perm l) ∧
      ∀ p ∈ t.handed, p.1 = p.2 := by
  have hinv : SwitchInv id l (switchStart s) :=
    ⟨hring, hnull, hcur, hstate, hothers, fun _ _ _ => rfl⟩
  obtain ⟨t, hrun, hresumed, hframes⟩ := switchCalls_run fuel calls hinv
  replace hresumed : t.resumed = List.iterate s.next (s.next (s.curr id)) calls.length := hresumed
  refine ⟨t, hrun, hresumed, ?_, ?_⟩
  · intro i hi
    have hmem : ∀ k, s.next^[k] (s.next (s.curr id)) ∈ l := by
      intro k
      induction k with
      | zero => exact hring.next_mem hcur
      | succ k ih =>
        rw [Function.iterate_succ_apply']
        exact hring.next_mem ih
    obtain ⟨k, hk⟩ : ∃ k, calls.length = i + (l.length + k) := ⟨calls.length - i - l.length, by omega⟩
    rw [hresumed, hk, List.iterate_add, List.drop_left' (List.length_iterate _ _ _),
      List.iterate_add, List.take_left' (List.length_iterate _ _ _)]
    exact (hring.visits (hmem i)).1
  · intro p hp
    exact (hframes p hp).resolve_left (List.not_mem_nil)

/-- Two tasks, the first one running. -/
def pairTasks : Tasks where
  heap := fun a => ⟨0, .zero, if a = 0x1000 then 0x2000 else 0x1000,
    if a = 0x1000 then taskRunning else taskActive, 0, fun _ => 0⟩
  curr := fun _ => 0x1000
  nextPid := 3

/-- Two calls resume both of them. -/
theorem round_robin_pair :
    ∃ t, [((0 : Addr), AllRegs.zero), (0, AllRegs.zero)].foldlM (switchCall 1 0)
        (switchStart pairTasks) = some t ∧
      t.resumed = [0x2000, 0x1000] ∧
      (∀ i, i + 2 ≤ 2 → ((t.resumed.drop i).take 2).Perm [0x1000, 0x2000]) ∧
      ∀ p ∈ t.handed, p.1 = p.2 := by
  have hring : Ring pairTasks.next [0x1000, 0x2000] := by
    refine ring_cons.mpr ⟨by decide, ?_⟩
    simp [Tasks.next, pairTasks]
  refine round_robin hring (by decide) (by decide) (Or.inl rfl) ?_ 0 _
  intro a ha hne
  rcases List.mem_cons.mp ha with rfl | ha
  · exact absurd rfl hne
  · rw [List.mem_singleton.mp ha]
    rfl

end OS64.Kernel
