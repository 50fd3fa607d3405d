import HackerUnion.Lock.Ownership
import HackerUnion.Lock.Serial

namespace Lock

/-- The disciplined program: read after the lock, end at once when the lock is not to be had. -/
def guarded : List Action := [.lockOrExit, .load, .handle, .write, .unlock, .exit]

def underLock : Action → Bool
  | .load | .handle | .write | .unlock => true
  | _ => false

theorem guarded_tail {a : Action} {rest : List Action} (h : a :: rest <:+ guarded) :
    (a = .lockOrExit ∧ rest = [.load, .handle, .write, .unlock, .exit]) ∨
    (a = .load ∧ rest = [.handle, .write, .unlock, .exit]) ∨
    (a = .handle ∧ rest = [.write, .unlock, .exit]) ∨
    (a = .write ∧ rest = [.unlock, .exit]) ∨
    (a = .unlock ∧ rest = [.exit]) ∨ (a = .exit ∧ rest = []) := by
  simpa [guarded, List.suffix_cons_iff] using h

/-- Between its lock and its write. -/
def Pending (todo : List Action) : Prop := .write ∈ todo ∧ .lockOrExit ∉ todo

theorem pending_head {todo : List Action} (hs : todo <:+ guarded) (h : Pending todo) :
    ∃ a rest, todo = a :: rest ∧ underLock a = true := by
  cases todo with
  | nil => simp [Pending] at h
  | cons a rest =>
    refine ⟨a, rest, rfl, ?_⟩
    rcases guarded_tail hs with ⟨rfl, rfl⟩ | ⟨rfl, rfl⟩ | ⟨rfl, rfl⟩ | ⟨rfl, rfl⟩ | ⟨rfl, rfl⟩ |
      ⟨rfl, rfl⟩
    · simp [Pending] at h
    · rfl
    · rfl
    · rfl
    · simp [Pending] at h
    · simp [Pending] at h

variable {Pid σ : Type} (prog : Pid → Program σ)

/-- Where a process running the disciplined program stands: before its lock it is not among
those who locked, and from its lock to its write it is the last who did, nobody has finished
since, and what it read is still what the file holds. -/
structure ProcGuarded (file : σ) (locked finished : List Pid) (p : Pid) (x : Proc σ) : Prop where
  suffix : x.todo <:+ guarded
  waiting : .lockOrExit ∈ x.todo → p ∉ locked
  pending : Pending x.todo → ∃ rest, locked = p :: rest ∧ finished.Sublist rest
  loaded : Pending x.todo → .load ∉ x.todo → x.loaded = some file
  result : ∀ r, x.result = some r → ∃ s, x.loaded = some s ∧ (prog p).handle s = some r

structure Guarded (init : σ) (w : World Pid σ) : Prop where
  owned : Owned underLock w
  procs : ∀ p, ProcGuarded prog w.file w.locked w.finished p (w.procs p)
  sublist : w.finished.Sublist w.locked
  nodup : w.locked.Nodup
  replay : replay prog w.finished.reverse init = w.file

variable {prog} {init file : σ} {w : World Pid σ} {p q : Pid} {locked finished : List Pid}

theorem ProcGuarded.ended {x : Proc σ} (h : ProcGuarded prog file locked finished p x)
    {y : Proc σ} (hl : y.loaded = x.loaded) (hr : y.result = x.result)
    (ht : y.todo <:+ [.unlock, .exit]) :
    ProcGuarded prog file locked finished p y := by
  have hs : [.unlock, .exit] <:+ guarded := by decide
  have no (a : Action) (ha : a ∈ y.todo) : a = .unlock ∨ a = .exit := by
    simpa using ht.subset ha
  refine ⟨ht.trans hs, ?_, ?_, ?_, by rw [hl, hr]; exact h.result⟩
  · intro ha
    simpa using no _ ha
  · intro ha
    simpa using no _ ha.1
  · intro ha
    simpa using no _ ha.1

/-- A process that ended its part, or never got to it, does not mind what becomes of the file. -/
theorem ProcGuarded.frame {x : Proc σ} (h : ProcGuarded prog file locked finished p x)
    (hx : ¬ Pending x.todo) (file' : σ) (finished' : List Pid) :
    ProcGuarded prog file' locked finished' p x :=
  ⟨h.suffix, h.waiting, fun hp => absurd hp hx, fun hp => absurd hp hx, h.result⟩

theorem Guarded.pending_lock (h : Guarded prog init w) (hp : Pending (w.procs p).todo) :
    (w.procs p).holds = true ∧ w.lock = some p := by
  obtain ⟨a, rest, ht, hn⟩ := pending_head (h.procs p).suffix hp
  exact h.owned.next ht hn

/-- Nobody else is between its lock and its write when `p` counts the lock as its own. -/
theorem Guarded.others (h : Guarded prog init w) (hh : (w.procs p).holds = true) :
    ∀ q, q ≠ p → ¬ Pending (w.procs q).todo := by
  intro q hq hpend
  exact hq (h.owned.exclusive (h.pending_lock hpend).1 hh)

variable [DecidableEq Pid]

/-- A process that goes on to its end leaves the others where they stand. -/
theorem Guarded.stays (h : Guarded prog init w) {x : Proc σ}
    (hl : x.loaded = (w.procs p).loaded) (hr : x.result = (w.procs p).result)
    (ht : x.todo <:+ [.unlock, .exit]) :
    ∀ q, ProcGuarded prog w.file w.locked w.finished q ((w.setProc p x).procs q) :=
  World.setProc_forall (fun q _ => h.procs q) ((h.procs p).ended hl hr ht)

section Actions

variable (h : Guarded prog init w)

include h

theorem Guarded.locks
    (htodo : (w.procs p).todo = [.lockOrExit, .load, .handle, .write, .unlock, .exit])
    (own : Owned underLock
      (perform prog w p [.load, .handle, .write, .unlock, .exit] .lockOrExit)) :
    Guarded prog init (perform prog w p [.load, .handle, .write, .unlock, .exit] .lockOrExit) := by
  have hp := h.procs p
  have hnew : p ∉ w.locked := hp.waiting (by simp [htodo])
  simp only [perform] at own ⊢
  split at own
  · rename_i hl
    refine ⟨own, ?_, h.sublist.cons p, List.nodup_cons.mpr ⟨hnew, h.nodup⟩, h.replay⟩
    apply World.setProc_forall
    · intro q hq
      have hn : ¬ Pending (w.procs q).todo := by
        intro hpend
        have e := (h.pending_lock hpend).2
        simp [hl] at e
      have hq' := h.procs q
      refine ⟨hq'.suffix, ?_, fun hpend => absurd hpend hn, fun hpend => absurd hpend hn,
        hq'.result⟩
      intro hm
      simpa [acquire, hq] using hq'.waiting hm
    · exact ⟨by simp [guarded], by simp, fun _ => ⟨w.locked, rfl, h.sublist⟩, by simp, hp.result⟩
  · exact ⟨own, h.stays rfl rfl (by simp), h.sublist, h.nodup, h.replay⟩

theorem Guarded.loads (htodo : (w.procs p).todo = [.load, .handle, .write, .unlock, .exit])
    (own : Owned underLock (perform prog w p [.handle, .write, .unlock, .exit] .load)) :
    Guarded prog init (perform prog w p [.handle, .write, .unlock, .exit] .load) := by
  have hpend := (h.procs p).pending (by simp [htodo, Pending])
  refine ⟨own, World.setProc_forall (fun q _ => h.procs q) ?_, h.sublist, h.nodup, h.replay⟩
  exact ⟨by simp [guarded, List.suffix_cons_iff], by simp, fun _ => hpend, fun _ _ => rfl,
    by simp⟩

theorem Guarded.handles (htodo : (w.procs p).todo = [.handle, .write, .unlock, .exit])
    (own : Owned underLock (perform prog w p [.write, .unlock, .exit] .handle)) :
    Guarded prog init (perform prog w p [.write, .unlock, .exit] .handle) := by
  have hp := h.procs p
  have hpend := hp.pending (by simp [htodo, Pending])
  have hload := hp.loaded (by simp [htodo, Pending]) (by simp [htodo])
  simp only [perform] at own ⊢
  split at own
  · rename_i r hr
    refine ⟨own, World.setProc_forall (fun q _ => h.procs q) ?_, h.sublist, h.nodup, h.replay⟩
    refine ⟨by simp [guarded, List.suffix_cons_iff], by simp, fun _ => hpend,
      fun _ _ => hload, ?_⟩
    intro r' hr'
    cases hr'
    exact Option.bind_eq_some_iff.mp hr
  · exact ⟨own, h.stays rfl rfl (by simp), h.sublist, h.nodup, h.replay⟩

theorem Guarded.writes (htodo : (w.procs p).todo = [.write, .unlock, .exit])
    (own : Owned underLock (perform prog w p [.unlock, .exit] .write)) :
    Guarded prog init (perform prog w p [.unlock, .exit] .write) := by
  have hp := h.procs p
  obtain ⟨hh, -⟩ := h.owned.next htodo rfl
  obtain ⟨older, hlocked, hsub⟩ := hp.pending (by simp [htodo, Pending])
  have hload := hp.loaded (by simp [htodo, Pending]) (by simp [htodo])
  have sublist : (p :: w.finished).Sublist w.locked := by
    rw [hlocked]
    exact hsub.cons_cons p
  have snoc (s : σ) (hs : (prog p).exec w.file = s) :
      Lock.replay prog (p :: w.finished).reverse init = s := by
    rw [List.reverse_cons, replay_append, h.replay]
    exact hs
  have written (s : σ) : ∀ q, ProcGuarded prog s w.locked (p :: w.finished) q
      ((w.setProc p { w.procs p with todo := [.unlock, .exit] }).procs q) := by
    apply World.setProc_forall
    · intro q hq
      exact (h.procs q).frame (h.others hh q hq) _ _
    · exact (hp.ended (y := { w.procs p with todo := [.unlock, .exit] }) rfl rfl
        (List.suffix_refl _)).frame (by simp [Pending]) _ _
  have worked (r : σ × Bool) (hr : (w.procs p).result = some r) :
      (prog p).handle w.file = some r := by
    obtain ⟨s, hs, hres⟩ := hp.result r hr
    rw [hload] at hs
    cases hs
    exact hres
  simp only [perform] at own ⊢
  split at own
  · rename_i s hres
    split at own
    · rename_i hw
      rw [if_pos hw]
      exact ⟨own, written s, sublist, h.nodup, snoc s (exec_of_dirty (worked _ hres) hw)⟩
    · rename_i hw
      rw [if_neg hw]
      exact ⟨own, h.stays rfl rfl (by simp), h.sublist, h.nodup, h.replay⟩
  · rename_i s hres
    exact ⟨own, written w.file, sublist, h.nodup, snoc _ (exec_of_clean (worked _ hres))⟩
  · exact ⟨own, h.stays rfl rfl (by simp), h.sublist, h.nodup, h.replay⟩

theorem Guarded.unlocks (own : Owned underLock (perform prog w p [.exit] .unlock)) :
    Guarded prog init (perform prog w p [.exit] .unlock) :=
  ⟨own, h.stays rfl rfl (by simp), h.sublist, h.nodup, h.replay⟩

theorem Guarded.exits (own : Owned underLock (perform prog w p [] .exit)) :
    Guarded prog init (perform prog w p [] .exit) := by
  simp only [perform] at own ⊢
  by_cases hh : (w.procs p).holds = true
  · rw [if_pos hh] at own ⊢
    exact ⟨own, h.stays rfl rfl List.nil_suffix, h.sublist, h.nodup, h.replay⟩
  · rw [if_neg hh] at own ⊢
    exact ⟨own, h.stays rfl rfl List.nil_suffix, h.sublist, h.nodup, h.replay⟩

end Actions

theorem guarded_step (w : World Pid σ) (p : Pid) (h : Guarded prog init w) :
    Guarded prog init (step prog w p) := by
  have howned : LockFree w p → Owned underLock (step prog w p) :=
    owned_step prog rfl rfl w p h.owned
  cases htodo : (w.procs p).todo with
  | nil => simpa [step, htodo] using h
  | cons a rest =>
    have hsuf := (h.procs p).suffix
    rw [htodo] at hsuf
    have own : Owned underLock (perform prog w p rest a) := by
      rw [← step_of_todo prog htodo]
      apply howned
      intro hh
      rw [htodo] at hh
      have e : a = .lock := by simpa using hh
      rcases guarded_tail hsuf with h | h | h | h | h | h <;> simp [e] at h
    rw [step_of_todo prog htodo]
    rcases guarded_tail hsuf with ⟨rfl, rfl⟩ | ⟨rfl, rfl⟩ | ⟨rfl, rfl⟩ | ⟨rfl, rfl⟩ | ⟨rfl, rfl⟩ |
      ⟨rfl, rfl⟩
    · exact h.locks htodo own
    · exact h.loads htodo own
    · exact h.handles htodo own
    · exact h.writes htodo own
    · exact h.unlocks own
    · exact h.exits own

/-- Disciplined programs need no further assumption: at any time the file is the replay of the
processes that finished, in the order in which they took the lock. -/
theorem guarded_run (init : σ)
    (hprog : ∀ p, (prog p).actions = guarded ∨ (prog p).actions = [.exit]) (sched : List Pid) :
    Guarded prog init (run prog (start prog init) sched) := by
  apply run_invariant prog guarded_step
  have hcov (p : Pid) : covered underLock false (prog p).actions = true := by
    rcases hprog p with h | h <;> rw [h] <;> rfl
  refine ⟨owned_start prog init hcov, ?_, by simp [start], by simp [start], rfl⟩
  intro p
  rcases hprog p with h | h
  · exact ⟨by simp [start, h], by simp [start], by simp [start, h, Pending, guarded],
      by simp [start, h, Pending, guarded], by simp [start]⟩
  · exact ⟨by simp [start, h, guarded, List.suffix_cons_iff], by simp [start],
      by simp [start, h, Pending], by simp [start, h, Pending], by simp [start]⟩

/-- A step changes the file only by writing what its process made of what it read. -/
theorem step_file (w : World Pid σ) (p : Pid) (h : (step prog w p).file ≠ w.file) :
    (w.procs p).todo.head? = some .write ∧ (prog p).writable = true ∧
      (w.procs p).result = some ((step prog w p).file, true) := by
  revert h
  cases htodo : (w.procs p).todo with
  | nil => simp [step, htodo]
  | cons a rest =>
    rw [step_of_todo prog htodo]
    cases a <;> simp only [perform]
    case lock | lockOrExit | handle | exit => split <;> simp [acquire]
    case write => split <;> (try split) <;> simp [*]
    all_goals simp

/-- Under the discipline, it took the lock, and what it read is what the file still holds. -/
theorem Guarded.step_handle (h : Guarded prog init w) (p : Pid)
    (hne : (step prog w p).file ≠ w.file) :
    p ∈ w.locked ∧ (prog p).handle w.file = some ((step prog w p).file, true) := by
  obtain ⟨hhead, -, hres⟩ := step_file w p hne
  obtain ⟨rest, htodo⟩ := List.head?_eq_some_iff.mp hhead
  have hp := h.procs p
  have hsuf := hp.suffix
  rw [htodo] at hsuf
  have hrest : rest = [.unlock, .exit] := by
    rcases guarded_tail hsuf with h | h | h | h | h | h
    all_goals simp at h
    exact h
  have hpend : Pending (w.procs p).todo := by simp [htodo, hrest, Pending]
  have hload : (w.procs p).loaded = some w.file := by
    apply hp.loaded hpend
    simp [htodo, hrest]
  obtain ⟨older, hlocked, -⟩ := hp.pending hpend
  obtain ⟨s, hs, hh⟩ := hp.result _ hres
  cases hload.symm.trans hs
  exact ⟨by simp [hlocked], hh⟩

section Settled

variable (prog) (I : σ → Prop)

/-- A process that took the lock is on its way to its write, or has got past it, or had nothing
to write on a file that satisfies `I`, or could not write. -/
def Settled (finished : List Pid) (p : Pid) (x : Proc σ) : Prop :=
  (.write ∈ x.todo ∧ (.handle ∉ x.todo → x.result.isSome)) ∨ p ∈ finished ∨
    (∃ s, I s ∧ (prog p).handle s = none) ∨ (prog p).writable = false

variable {prog I}

omit [DecidableEq Pid] in
theorem Settled.ended {x : Proc σ} (h : Settled prog I finished p x) (hx : .write ∉ x.todo)
    (y : Proc σ) : Settled prog I finished p y := by
  rcases h with ⟨hw, -⟩ | h
  · exact absurd hw hx
  · exact Or.inr h

theorem settled_step (w : World Pid σ) (p : Pid) (hg : Guarded prog init w) (hI : I w.file)
    (h : ∀ q ∈ w.locked, Settled prog I w.finished q (w.procs q)) :
    ∀ q ∈ (step prog w p).locked,
      Settled prog I (step prog w p).finished q ((step prog w p).procs q) := by
  cases htodo : (w.procs p).todo with
  | nil => simpa [step, htodo] using h
  | cons a rest =>
    have hp := hg.procs p
    have hsuf := hp.suffix
    rw [htodo] at hsuf
    rw [step_of_todo prog htodo]
    have stays (x : Proc σ) (hx : p ∈ w.locked → Settled prog I w.finished p x) :
        ∀ q ∈ w.locked, Settled prog I w.finished q ((w.setProc p x).procs q) := by
      intro q hq
      have hall := World.setProc_forall
        (P := fun q x => q ∈ w.locked → Settled prog I w.finished q x)
        (fun q _ => h q) hx
      exact hall q hq
    rcases guarded_tail hsuf with ⟨rfl, rfl⟩ | ⟨rfl, rfl⟩ | ⟨rfl, rfl⟩ | ⟨rfl, rfl⟩ | ⟨rfl, rfl⟩ |
      ⟨rfl, rfl⟩
    · -- lockOrExit
      have hnew : p ∉ w.locked := hp.waiting (by simp [htodo])
      simp only [perform]
      split
      · intro q hq
        by_cases hqp : q = p
        · subst hqp
          exact Or.inl (by simp [acquire])
        · have hq' : q ∈ w.locked := by simpa [acquire, hqp] using hq
          simpa [acquire, hqp] using h q hq'
      · exact stays _ (fun hm => absurd hm hnew)
    · -- load
      exact stays _ (fun _ => Or.inl (by simp))
    · -- handle
      have hload := hp.loaded (by simp [htodo, Pending]) (by simp [htodo])
      simp only [perform]
      split
      · exact stays _ (fun _ => Or.inl (by simp))
      · rename_i hr
        have hnone : (prog p).handle w.file = none := by simpa [hload] using hr
        exact stays _ (fun _ => Or.inr (Or.inr (Or.inl ⟨w.file, hI, hnone⟩)))
    · -- write
      have wrote : ∀ q ∈ w.locked, Settled prog I (p :: w.finished) q
          ((w.setProc p { w.procs p with todo := [.unlock, .exit] }).procs q) := by
        intro q hq
        by_cases hqp : q = p
        · exact Or.inr (Or.inl (by simp [hqp]))
        · rcases h q hq with hs | hs | hs
          · exact Or.inl (by simpa [hqp] using hs)
          · exact Or.inr (Or.inl (List.mem_cons_of_mem p hs))
          · exact Or.inr (Or.inr hs)
      simp only [perform]
      split
      · split
        · exact wrote
        · rename_i hw
          exact stays _ (fun _ => Or.inr (Or.inr (Or.inr (by simpa using hw))))
      · exact wrote
      · rename_i hres
        apply stays
        intro hm
        rcases h p hm with ⟨-, hs⟩ | hs
        · simp [htodo, hres] at hs
        · exact Or.inr hs
    · -- unlock
      exact stays _ (fun hm => (h p hm).ended (by simp [htodo]) _)
    · -- exit
      simp only [perform]
      split
      · exact stays _ (fun hm => (h p hm).ended (by simp [htodo]) _)
      · exact stays _ (fun hm => (h p hm).ended (by simp [htodo]) _)

theorem settled_run (hI : ∀ p s s' d, I s → (prog p).handle s = some (s', d) → I s')
    (hprog : ∀ p, (prog p).actions = guarded ∨ (prog p).actions = [.exit])
    {file : σ} (h : I file) (sched : List Pid) :
    ∀ p ∈ (run prog (start prog file) sched).locked,
      Settled prog I (run prog (start prog file) sched).finished p
        ((run prog (start prog file) sched).procs p) := by
  have hinv := run_invariant prog (w := start prog file)
    (I := fun w => Guarded prog file w ∧ FileHolds I w ∧
      ∀ p ∈ w.locked, Settled prog I w.finished p (w.procs p))
    (fun w p hw => ⟨guarded_step w p hw.1, fileHolds_step prog hI w p hw.2.1,
      settled_step w p hw.1 hw.2.1.file hw.2.2⟩) sched
    ⟨guarded_run file hprog [], fileHolds_run prog hI h [], by simp [start]⟩
  exact hinv.2.2

end Settled

end Lock
