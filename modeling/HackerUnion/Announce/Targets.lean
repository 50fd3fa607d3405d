import HackerUnion.Announce.Queue
import HackerUnion.Announce.Runs

namespace HackerUnion.Announce

open Js Js.Number

variable {F D : Type} [Number F]

/-- How many users `chooseByScore` asks the sample for; `none` is `NaN`. -/
def sampleSize (score : F) (inc exc : List String) : Option Int :=
  (getReachByScore score).bind fun reach => round (lit (without inc exc).length * reach)

theorem chooseByScore_eq (draw : Nat → Nat) (score : F) (inc exc : List String) :
    chooseByScore draw score inc exc = sample draw (without inc exc) (sampleSize score inc exc) :=
  rfl

/-- The user is interested: without a list of topics, in everything, or in one of these. -/
def Eligible (own : Option (Option (List String))) (topics : List String) : Prop :=
  match own.join with
  | none => True
  | some own => "general" ∈ own ∨ ∃ topic ∈ own, topic ∈ topics

instance decidableEligible (own : Option (Option (List String))) (topics : List String) :
    Decidable (Eligible own topics) :=
  match own with
  | none => isTrue trivial
  | some none => isTrue trivial
  | some (some own) => inferInstanceAs (Decidable ("general" ∈ own ∨ ∃ topic ∈ own, topic ∈ topics))

section Task

variable (run : Dispatch) (scope : Scope F D) (task : Task F) (announce : Announcement)

/-- The task is broadcast, and not skipped for bad performance. -/
def sends : Bool :=
  task.ttl = ttl ||
    ge (reputation (prepareTask run scope task announce).1 announce.user).score task.score

/-- The users that a task is broadcast to. -/
def recipients : List String :=
  if sends run scope task announce then (prepareTask run scope task announce).2 else []

/-- An intersection is an array, and an array is never false. -/
theorem targets_eq_true (profile : Option (Option (List String))) (topics : List String) :
    targets profile topics = true := by
  unfold targets
  cases profile.join with
  | none => rfl
  | some own => exact Bool.or_true _

theorem targetUsers_eq (users topics : List String) :
    (targetUsers scope users topics).2 = users := by
  have hfold (found : List String) (s : Scope F D) :
      (users.foldl
        (fun p user =>
          let scope := getProfile p.1 user
          (scope, if targets (topicsOf scope user) topics then p.2 ++ [user] else p.2))
        (s, found)).2 = found ++ users := by
    induction users generalizing found s with
    | nil => exact (List.append_nil found).symm
    | cons user users ih =>
      rw [List.foldl_cons]
      dsimp only
      rw [targets_eq_true, if_pos rfl, ih, List.append_assoc]
      rfl
  exact hfold [] scope

theorem prepareTask_snd : (prepareTask run scope task announce).2 =
    sample (run.draw scope.rounds) (without run.passwd (task.users.getD []))
      (sampleSize task.score run.passwd (task.users.getD [])) := by
  have hprepare : (prepareTask run scope task announce).2 =
      chooseByScore (run.draw (targetUsers scope run.passwd announce.topics).1.rounds) task.score
        (targetUsers scope run.passwd announce.topics).2 (task.users.getD []) := rfl
  rw [hprepare, targetUsers_eq, (targetUsers_frame scope run.passwd announce.topics).rounds,
    chooseByScore_eq]

variable {run scope task announce}

/-- What is sent goes to the recipients, one e-mail to each. -/
theorem handleTask_recipients [DecidableEq D] {sha1 : String → D} {scope' : Scope F D}
    {task' : Task F} (h : handleTask sha1 run scope task (some announce) = some (scope', task')) :
    if sends run scope task announce then
      ∃ mails, mails.map Mail.user = recipients run scope task announce ∧
        scope'.outbox = scope.outbox ++ [⟨announce, mails⟩]
    else scope'.outbox = scope.outbox := by
  have hframe := prepareTask_frame run scope task announce
  have hcond : sends run scope task announce = (task.ttl = ttl ||
    ge (reputation (getProfile (targetUsers scope run.passwd announce.topics).1 announce.user)
      announce.user).score task.score) := rfl
  cases hb : sends run scope task announce with
  | true =>
    rw [if_pos rfl]
    have hbroadcast := broadcast_lists sha1 run announce (prepareTask run scope task announce).1
      (prepareTask run scope task announce).2
    obtain ⟨-, -, mails, hmails, houtbox⟩ := hbroadcast
    refine ⟨mails, ?_, ?_⟩
    · rw [recipients, hb, if_pos rfl]
      exact hmails
    · rw [hb] at hcond
      simp only [handleTask, Option.bind_eq_bind, Option.bind_some] at h
      rw [if_pos hcond.symm] at h
      obtain ⟨users, -, h⟩ := Option.bind_eq_some_iff.mp h
      cases h
      rw [← hframe.outbox]
      exact houtbox
  | false =>
    rw [if_neg Bool.false_ne_true]
    rw [hb] at hcond
    simp only [handleTask, Option.bind_eq_bind, Option.bind_some] at h
    rw [if_neg (by rw [← hcond]; exact Bool.false_ne_true)] at h
    cases h
    exact hframe.outbox

end Task

/-- Whatever the sample, a task is broadcast to interested users only, if and only if it is skipped,
nobody is asked for, or everyone is interested who has not had it. -/
theorem recipients_eligible_iff (run : Dispatch) (scope : Scope F D) (task : Task F)
    (announce : Announcement) :
    (∀ draw, ∀ user ∈ recipients { run with draw := draw } scope task announce,
        Eligible (topicsOf (getProfile scope user) user) announce.topics) ↔
      sends run scope task announce = true →
        (sampleSize task.score run.passwd (task.users.getD [])).getD 0 ≤ 0 ∨
          ∀ user ∈ run.passwd, user ∉ task.users.getD [] →
            Eligible (topicsOf (getProfile scope user) user) announce.topics := by
  have hcandidate (user : String) : user ∈ without run.passwd (task.users.getD []) ↔
      user ∈ run.passwd ∧ user ∉ task.users.getD [] := by
    simp [without]
  have hrecipients (draw : Nat → Nat → Nat) (hb : sends run scope task announce = true) :
      recipients { run with draw := draw } scope task announce =
        sample (draw scope.rounds) (without run.passwd (task.users.getD []))
          (sampleSize task.score run.passwd (task.users.getD [])) := by
    have hb' : sends { run with draw := draw } scope task announce = true := hb
    rw [recipients, if_pos hb', prepareTask_snd]
  constructor
  · intro h hb
    cases hsize : sampleSize task.score run.passwd (task.users.getD []) with
    | none => exact Or.inl (le_refl _)
    | some n =>
      by_cases hn : n ≤ 0
      · exact Or.inl hn
      · right
        intro user hpasswd hnew
        obtain ⟨draw, hdraw⟩ :=
          exists_mem_sample ((hcandidate user).mpr ⟨hpasswd, hnew⟩) (Int.not_le.mp hn)
        refine h (fun _ => draw) user ?_
        rw [hrecipients _ hb, hsize]
        exact hdraw
  · intro h draw user huser
    cases hb : sends run scope task announce with
    | false =>
      have hb' : sends { run with draw := draw } scope task announce = false := hb
      rw [recipients, hb'] at huser
      cases huser
    | true =>
      rw [hrecipients draw hb] at huser
      rcases h hb with hnone | hall
      · have hlength := sample_length (draw scope.rounds)
          (without run.passwd (task.users.getD []))
          (sampleSize task.score run.passwd (task.users.getD []))
        rw [Int.toNat_of_nonpos hnone, Nat.zero_min] at hlength
        rw [List.length_eq_zero_iff.mp hlength] at huser
        cases huser
      · have hmem := (sample_subperm (draw scope.rounds)
          (without run.passwd (task.users.getD []))
          (sampleSize task.score run.passwd (task.users.getD []))).subset huser
        obtain ⟨hpasswd, hnew⟩ := (hcandidate user).mp hmem
        exact hall user hpasswd hnew

section Examples

/-- Bob is interested in art. -/
def artist : Scope Rat String :=
  getScope ⟨[], [], Obj.empty.set "bob" ⟨none, some (some ["art"])⟩, Obj.empty⟩ ""

/-- He is told of what is about cars. -/
theorem recipients_not_eligible :
    ¬∀ (run : Dispatch) (scope : Scope Rat String) (task : Task Rat) (announce : Announcement),
      ∀ user ∈ recipients run scope task announce,
        Eligible (topicsOf (getProfile scope user) user) announce.topics := by
  intro h
  have hbob := h annAndBob artist ⟨0, 3, none, 9 / 10, some ["ann"]⟩
    ⟨0, ["cars"], "Cars", "A new car.", none, "ann"⟩ "bob" (by decide +kernel)
  revert hbob
  decide +kernel

end Examples

end HackerUnion.Announce
