import HackerUnion.Lock.World
import HackerUnion.Lock.Ownership
import HackerUnion.Lock.Serial
import HackerUnion.Lock.Guarded
import HackerUnion.Lists.Intercalate
import HackerUnion.Lists.SplitOn
import HackerUnion.Js.Lodash
import HackerUnion.Js.Value
import HackerUnion.Js.Json
import HackerUnion.Js.Walk
import HackerUnion.Js.Tokens
import HackerUnion.Js.Exact
import HackerUnion.Js.Integer
import HackerUnion.Js.Utf8
import HackerUnion.Js.Querystring
import HackerUnion.Announce.Lib
import HackerUnion.Announce.Request
import HackerUnion.Announce.Dispatch
import HackerUnion.Announce.Frame
import HackerUnion.Announce.Process
import HackerUnion.Announce.Interleaving
import HackerUnion.Announce.Queue
import HackerUnion.Announce.Integrity
import HackerUnion.Announce.Runs
import HackerUnion.Announce.Delivery
import HackerUnion.Announce.Drain
import HackerUnion.Announce.Cooldown
import HackerUnion.Announce.Records
import HackerUnion.Announce.Ledger
import HackerUnion.Announce.Votes
import HackerUnion.Announce.Pass
import HackerUnion.Announce.Targets
import HackerUnion.Announce.Confidence
import HackerUnion.Announce.Topics
import HackerUnion.Body.Parse
import HackerUnion.Events.Rsvp
import HackerUnion.StackEditor.Document
import HackerUnion.Bash.Text
import HackerUnion.Bash.Base64
import HackerUnion.Bash.Echo
import HackerUnion.Bash.Read
import HackerUnion.Bash.Sort
import HackerUnion.Bash.Words
import HackerUnion.Bash.Expression
import HackerUnion.Sbin.Common
import HackerUnion.Sbin.Json
import HackerUnion.Sbin.Save
import HackerUnion.Sbin.Groups
import HackerUnion.Sbin.Halt
import HackerUnion.Sbin.Unquoted
import HackerUnion.Sbin.Comment
import HackerUnion.Sbin.Users
import HackerUnion.Sbin.Recreate
import HackerUnion.Sbin.Init
import HackerUnion.Sbin.InitOrder
import HackerUnion.Listing.Ls
import HackerUnion.Listing.Live
import HackerUnion.Listing.Tree
import HackerUnion.Listing.Agree
import HackerUnion.Shell.Kernel
import HackerUnion.Shell.Navigation
import HackerUnion.StackEditor.Handlers
import HackerUnion.StackEditor.Select
import HackerUnion.StackEditor.Grid
import HackerUnion.Run.Copy
import HackerUnion.StackEditor.Shift
import HackerUnion.StackEditor.Sheet
import HackerUnion.StackEditor.Paste
import HackerUnion.StackEditor.Repeated
import HackerUnion.StackEditor.Text
import HackerUnion.Diff.Tool
import HackerUnion.Diff.Interleaving
import HackerUnion.Diff.Overwrite
import HackerUnion.Membership.Apply
import HackerUnion.Membership.Decide
import HackerUnion.Membership.Conserve
import HackerUnion.Membership.Mail
import HackerUnion.Membership.RoundTrip
import HackerUnion.Durable.Table
import HackerUnion.Durable.Handler
import HackerUnion.Durable.History
import HackerUnion.Durable.Roster
import HackerUnion.Petri.Models
import HackerUnion.Petri.Account
import HackerUnion.Petri.Forms
import HackerUnion.Petri.Frame
import HackerUnion.Petri.Acts
import HackerUnion.Petri.Refine
import HackerUnion.Petri.Allowed
import HackerUnion.Petri.Views
import HackerUnion.Petri.Roles
import HackerUnion.Petri.Requests
import HackerUnion.Petri.Atomic
import HackerUnion.Petri.Deactivate
import HackerUnion.Petri.Lists
import HackerUnion.Petri.Rolls
import HackerUnion.Petri.Upkeep
import HackerUnion.Petri.Signup
import HackerUnion.Petri.Subscribed
import HackerUnion.Petri.Sync
import HackerUnion.Petri.Proxy
import HackerUnion.Petri.Applicants
import HackerUnion.Durable.Serial
import HackerUnion.Board.Models
import HackerUnion.Board.Views
import HackerUnion.Board.Access
import HackerUnion.Board.Ledger
import HackerUnion.Board.Made
import HackerUnion.Board.Accepted
import HackerUnion.Board.Loop
import HackerUnion.Board.Authority
import HackerUnion.Board.Listing
import HackerUnion.Board.Reading
import HackerUnion.Tags.Spelling
import HackerUnion.Tags.Skills
import HackerUnion.Lists.Stack
import HackerUnion.Lists.Front
import HackerUnion.Shell.Canonical
import HackerUnion.Shell.Breadcrumb
import HackerUnion.Shell.Reorder
import HackerUnion.Bash.Length
import HackerUnion.Bash.Grep
import HackerUnion.Membership.Username
import HackerUnion.Membership.Duplicates
import HackerUnion.Sbin.Passwords
import HackerUnion.Listing.Walk
import HackerUnion.Unix.Files
import HackerUnion.Unix.Exec
import HackerUnion.Super.Main
import HackerUnion.Portal.Tiny
import HackerUnion.Petri.Ban
import HackerUnion.Lists.Numeral
import HackerUnion.Lists.Slice
import HackerUnion.Lists.Renaming
import HackerUnion.Common.Strings
import HackerUnion.Common.Views
import HackerUnion.Common.Helpers
import HackerUnion.Mailgun.Client
import HackerUnion.Petri.Mentions
import HackerUnion.Board.Notices
import HackerUnion.Board.Saves
import HackerUnion.Lists.EditGraph
import HackerUnion.Diff.JsDiff
import HackerUnion.Diff.Myers
import HackerUnion.Diff.Changes
import HackerUnion.Lists.Replace
import HackerUnion.Bash.Expansion
import HackerUnion.Js.Uri
import HackerUnion.Cgi.Getvar
import HackerUnion.Cgi.Fields
import HackerUnion.Cgi.Fetch
import HackerUnion.Minify.Jsmin
import HackerUnion.Minify.Lexemes
import HackerUnion.Minify.Refine
import HackerUnion.Minify.Relex
import HackerUnion.Sbin.Sync
import HackerUnion.Sbin.Startcron
import HackerUnion.Js.Stringify
import HackerUnion.Js.Members
import HackerUnion.Run.Relate
import HackerUnion.StackEditor.Callback
import HackerUnion.StackEditor.Alike
import HackerUnion.StackEditor.Export
import HackerUnion.StackEditor.Session
import HackerUnion.Lists.Runs
import HackerUnion.Minify.Packer
import HackerUnion.Minify.Dictionary
import HackerUnion.Minify.Unpack
import HackerUnion.Lists.Assignment
import HackerUnion.Minify.Shortest
import HackerUnion.Shell.Panels
