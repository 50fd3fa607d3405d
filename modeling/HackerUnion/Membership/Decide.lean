import HackerUnion.Bash.Echo
import HackerUnion.Bash.Words

namespace HackerUnion.Membership

open Bash

/-- What the script prints on its way. -/
inductive Report where
  | unsupported (version : Text)
  | duplicate (ip : Text)
  | emailSent
  | emailFailed
  | userCreated (userlogin : Text)
  | userFailed
  | usernameUpdated
  | invalidChoice (action : Option Char)
  deriving DecidableEq

structure Entry where
  decision : Char
  date : Text
  line : Text
  deriving DecidableEq

/-- A call of `compose_email_or_retry`: the address that is meant, and the arguments. -/
structure Call where
  email : Text
  args : List Text
  deriving DecidableEq

/-- The variables of the script that last from one record to the next, what it has logged and
printed, and the calls of `compose_email_or_retry`. -/
structure State where
  next : Text
  seen : Text
  quit : Bool
  log : List Entry
  reports : List Report
  composed : List Call
  deriving DecidableEq

/-- What is typed and what comes of it, the next time round: the two keys, the name, whether a mail
was written and sent, whether the account was made, and the date. -/
structure Round where
  action : Option Char
  confirm : Option Char
  username : Text
  mailed : Bool
  created : Bool
  date : Text
  deriving DecidableEq

/-- `EMAIL_TEMPLATE` -/
def emailTemplate : Text :=
  List.intercalate ['\n']
    [text "Subject:",
      text "",
      text "<pre>",
      text "</pre>"]

/-- `ACCEPT_TEMPLATE` -/
def acceptTemplate : Text :=
  List.intercalate ['\n']
    [text "Subject: Welcome to the Hacker Union!",
      text "",
      text "<pre>",
      text "Congratulations! Your Hacker Union membership has been approved.",
      text "",
      text "Username: $USERLOGIN",
      text "Password: $USERPASS",
      text "",
      text "----------",
      text "NEXT STEPS",
      text "==========",
      text "",
      text "1. <a href=\"http://h9n.org/#/home/guest/docs/ssh_info.cgi\">" ++
      text "Set up SSH access and change your password</a>",
      text "2. <a href=\"http://h9n.org/#/home/guest/docs/the_guide.md\">Skim The Guide</a>",
      text "3. <a href=\"http://h9n.org\">Explore the server and create a home page</a>",
      text "",
      text "---------",
      text "IMPORTANT",
      text "=========",
      text "",
      text "You are currently a recruit.",
      text "",
      text "To become a full member (and receive a membership card), you must either:",
      text "",
      text " I.    Come to 3+ events",
      text " II.   Commit code to the Hacker Union server",
      text " III.  Host a Hack Night",
      text " IV.   Launch a project on the server",
      text "",
      text "If you have any questions, don't hestiate to get in touch!",
      text "",
      text "Happy Hacking,",
      text "root",
      text "</pre>"]

/-- `REJECT_TEMPLATE` -/
def rejectTemplate : Text :=
  List.intercalate ['\n']
    [text "Subject: RE: Hacker Union Application",
      text "",
      text "<pre>",
      text "Thank you for applying to the Hacker Union.",
      text "",
      text "Before moving forward, we'd like you to join us for an event:",
      text "",
      text "<a href=\"http://h9n.org/var/www/events/\">http://h9n.org/var/www/events/</a>",
      text "",
      text "Let the host know that you're interested in membership, and" ++
      text " they'll point you in the right direction.",
      text "",
      text "Happy Hacking,",
      text "root",
      text "</pre>"]

/-- What the script uses of the system: the file names a word matches, and whether the addresses
seen match an address and what is left of them without it. -/
structure Env where
  glob : Text → List Text
  seenIn : Text → Text → Bool
  forget : Text → Text → Text

/-- A system where no file name matches a word, and addresses stand for themselves. -/
def bareEnv : Env where
  glob _ := []
  seenIn seen ip := contains ip seen
  forget seen ip := eraseFirst ip seen

variable (env : Env)

/-- `` `echo $LINE | cut -d\| -f$n` `` -/
def field (n : Nat) (line : Text) : Text :=
  capture (unlines ((lines (echo (expand env.glob line))).map (cut '|' n)))

/-- The variables of one record. -/
structure Record where
  line : Text
  ip : Text
  fullname : Text
  email : Text
  userlogin : Text
  timestamp : Text
  comment : Text
  deriving DecidableEq

def parse (line : Text) : Record where
  line := line
  ip := field env 2 line
  fullname := field env 3 line
  email := field env 4 line
  userlogin := lower (field env 5 line)
  timestamp := field env 6 line
  comment := field env 7 line

def State.report (s : State) (r : Report) : State := { s with reports := s.reports ++ [r] }

def State.record (s : State) (decision : Char) (date line : Text) : State :=
  { s with log := s.log ++ [⟨decision, date, line⟩] }

/-- `NEXT="$NEXT\n$LINE"` -/
def State.keep (s : State) (line : Text) : State :=
  { s with next := s.next ++ text "\\n" ++ line }

def State.compose (s : State) (email : Text) (args : List Text) : State :=
  { s with composed := s.composed ++ [⟨email, args⟩] }

/-- What comes of one time round the inner loop: `continue`, which the functions called do for the
loop as well, or `break`. -/
inductive Turn where
  | again (s : State) (userlogin : Text)
  | done (s : State)
  deriving DecidableEq

def confirmed (key : Option Char) : Bool := key = some 'y' || key = some 'Y'

/-- A mail to the address, of which the words are arguments of their own. -/
def mail (s : State) (email template : Text) (force : List Text) (sent : Bool) : State :=
  (s.compose email (expand env.glob email ++ template :: force)).report
    (if sent then .emailSent else .emailFailed)

/-- The branches of `case`, with the action that was chosen. -/
def act (s : State) (r : Record) (userlogin : Text) (round : Round) (action : Option Char) : Turn :=
  match action with
  | some 'a' | some 'A' =>
    if !confirmed round.confirm then .again s userlogin
    else
      let s := mail env s r.email acceptTemplate [text "force"] round.mailed
      if !round.mailed then .again s userlogin
      else if !round.created then .again (s.report .userFailed) userlogin
      else .done ((s.report (.userCreated userlogin)).record 'a' round.date r.line)
  | some 'r' | some 'R' =>
    if !confirmed round.confirm then .again s userlogin
    else
      let s := mail env s r.email rejectTemplate [text "force"] round.mailed
      if !round.mailed then .again s userlogin else .done (s.record 'r' round.date r.line)
  | some 'd' | some 'D' =>
    if !confirmed round.confirm then .again s userlogin
    else .done (s.record 'd' round.date r.line)
  | some 'e' | some 'E' =>
    let s := mail env s r.email emailTemplate [] round.mailed
    if !round.mailed then .again s userlogin else .done (s.keep r.line)
  | some 'u' | some 'U' => .again (s.report .usernameUpdated) round.username
  | some 's' | some 'S' =>
    if !confirmed round.confirm then .again s userlogin else .done (s.keep r.line)
  | some 'q' | some 'Q' =>
    if !confirmed round.confirm then .again s userlogin
    else .done { s.keep r.line with quit := true }
  | _ => .again (s.report (.invalidChoice action)) userlogin

/-- A record from an address already seen is taken for one to delete, the first time. -/
def turn (s : State) (r : Record) (userlogin : Text) (round : Round) : Turn :=
  if env.seenIn s.seen r.ip then
    act env { s.report (.duplicate r.ip) with seen := env.forget s.seen r.ip } r userlogin round
      (some 'd')
  else act env s r userlogin round round.action

def State.see (s : State) (ip : Text) : State := { s with seen := ip ++ '|' :: s.seen }

/-- The inner loop: nothing when it still waits for an answer, else the state it ends in and the
answers that are left. After quitting every record is skipped without asking. -/
def deliberate (s : State) (r : Record) (userlogin : Text) :
    List Round → Option (State × List Round)
  | [] => if s.quit then some ((s.keep r.line).see r.ip, []) else none
  | round :: rounds =>
    if s.quit then some ((s.keep r.line).see r.ip, round :: rounds)
    else
      match turn env s r userlogin round with
      | .again s userlogin => deliberate s r userlogin rounds
      | .done s => some (s.see r.ip, rounds)

/-- `echo "$LINE" | grep -q '^$'` -/
def skipped (line : Text) : Bool := (lines (echo [line])).any (· = [])

def version (line : Text) : Text := field env 1 line

/-- One line of the data file. -/
def visit (s : State) (line : Text) (rounds : List Round) : Option (State × List Round) :=
  if skipped line then some (s, rounds)
  else if version env line ≠ text "1" then
    some (s.report (.unsupported (version env line)), rounds)
  else deliberate env s (parse env line) (parse env line).userlogin rounds

def visitAll (s : State) : List Text → List Round → Option State
  | [], _ => some s
  | line :: lines, rounds =>
    match visit env s line rounds with
    | none => none
    | some (s, rounds) => visitAll s lines rounds

def start : State := ⟨[], [], false, [], [], []⟩

/-- The run over a data file, if it comes to its end. -/
def runDecide (data : Text) (rounds : List Round) : Option State :=
  visitAll env start (readLines data) rounds

/-- The data file after a run. -/
def rewritten (s : State) : Text := echo [text "-e", s.next]

/-- A line that a decision is asked for. -/
def supported (line : Text) : Bool := !skipped line && version env line = text "1"

/-- The records that a run takes up. -/
def records (data : Text) : List Text := (readLines data).filter (supported env)

variable {line : Text}

theorem visit_supported (s : State) (h : supported env line = true) (rounds : List Round) :
    visit env s line rounds =
      deliberate env s (parse env line) (parse env line).userlogin rounds := by
  simp only [supported, Bool.and_eq_true, Bool.not_eq_true', decide_eq_true_eq] at h
  rw [visit, if_neg (by simp [h.1]), if_neg (by simp [h.2])]

/-- What is not a record is reported at most. -/
theorem visit_unsupported (s : State) (h : supported env line = false) :
    ∃ reports, ∀ rounds,
      visit env s line rounds = some ({ s with reports := reports }, rounds) := by
  unfold visit
  split
  · exact ⟨s.reports, fun _ => rfl⟩
  · rename_i hskip
    have hversion : version env line ≠ text "1" := by
      intro heq
      simp [supported, hskip, heq] at h
    simp only [if_pos hversion]
    exact ⟨_, fun _ => rfl⟩

end HackerUnion.Membership
