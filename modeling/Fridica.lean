import Fridica.Lib.Window
import Fridica.Attention.Proofs
import Fridica.External.Proofs
import Fridica.Threads.Request
import Fridica.Threads.Results.Spec
import Fridica.Threads.Results.Proofs
import Fridica.Lib.Checked
import Fridica.Lib.Text
import Fridica.Threads.Validate.Spec
import Fridica.Threads.Handoffs.Proofs
import Fridica.Threads.Commit.Spec
import Fridica.Threads.Commit.Proofs
import Fridica.Control.Events.Proofs
import Fridica.Approvals.Spec
import Fridica.Approvals.Proofs
import Fridica.Slack.Catchup.Spec
import Fridica.Slack.Catchup.Proofs
import Fridica.Lib.Act
import Fridica.Workers.Supervisor.World
import Fridica.Workers.Supervisor.Spec
import Fridica.Lib.Table
import Fridica.Workers.Supervisor.Contract
import Fridica.Workers.Supervisor.Pass
import Fridica.Workers.Supervisor.Pool
import Fridica.Workers.Supervisor.Invariant
import Fridica.Workers.Supervisor.Operations
import Fridica.Workers.Supervisor.Schedule
import Fridica.Workers.Supervisor.Runs
import Fridica.Control.Feed.Proofs
import Fridica.Lib.Json
import Fridica.Github.Checks.Spec
import Fridica.Github.Checks.Proofs
import Fridica.Lib.Shell
import Fridica.Exec.Ssh.Spec
import Fridica.Exec.Ssh.Proofs
import Fridica.Exec.Settings.Spec
import Fridica.Exec.Settings.Proofs
import Fridica.Exec.Settings.Toml.Spec
import Fridica.Exec.Settings.Toml.Dates
import Fridica.Exec.Settings.Toml.Numbers
import Fridica.Exec.Settings.Toml.Values
import Fridica.Exec.Settings.Toml.Proofs
import Fridica.Config.Writers.Spec
import Fridica.Config.Writers.Proofs
import Fridica.Threads.Configuration.Spec
import Fridica.Threads.Configuration.Proofs
import Fridica.Workers.Sessions.Spec
import Fridica.Workers.Sessions.Proofs
import Fridica.Threads.Controls.Proofs
import Fridica.Lib.Path
import Fridica.Exec.Isolation.Spec
import Fridica.Exec.Isolation.Proofs
import Fridica.Config.Loader.Proofs
import Fridica.Config.Loader.Spec
import Fridica.Lib.Utf8
import Fridica.Lib.Lines
import Fridica.Workers.Progress.Spec
import Fridica.Workers.Progress.Proofs
import Fridica.Control.Pages.Spec
import Fridica.Lib.Cursor
import Fridica.Control.Pages.Proofs
import Fridica.Github.Links.Spec
import Fridica.Github.Links.Proofs
import Fridica.Parent.LoginGate.Spec
import Fridica.Parent.LoginGate.Proofs
import Fridica.Control.Target.Spec
import Fridica.Control.Target.Proofs
import Fridica.Slack.Metadata.Spec
import Fridica.Slack.Metadata.Proofs
import Fridica.Slack.Catchup.Gaps
import Fridica.Threads.Validate.Proofs
import Fridica.Threads.Direct.Spec
import Fridica.Threads.Direct.Proofs
import Fridica.Workers.RunTask.Spec
import Fridica.Workers.RunTask.Proofs
import Fridica.Lib.Regex
import Fridica.Github.View.Proofs
import Fridica.Slack.Files.Spec
import Fridica.Slack.Files.Proofs
import Fridica.Slack.Files.Reading
import Fridica.Slack.Files.Again
import Fridica.Exec.Process.Spec
import Fridica.Exec.Process.Proofs
import Fridica.Threads.Dispatcher.Proofs
import Fridica.Lib.Streak
import Fridica.Threads.Streaks.Spec
import Fridica.Threads.Streaks.Proofs
import Fridica.Lib.JsonText
import Fridica.Parent.Attachments.Spec
import Fridica.Parent.Attachments.Proofs
import Fridica.Config.Contract.Spec
import Fridica.Config.Contract.Grammar
import Fridica.Config.Contract.Scanner
import Fridica.Config.Contract.Proofs
import Fridica.Lib.Fresh
import Fridica.Lib.Layout
import Fridica.Lib.Binary64
import Fridica.Lib.Toml.Spec
import Fridica.Github.Client.Spec
import Fridica.Github.Client.Proofs
import Fridica.Parent.Cli.Spec
import Fridica.Parent.Cli.Proofs
import Fridica.Slack.Names.Spec
import Fridica.Slack.Names.Proofs
import Fridica.Config.Isolation.Spec
import Fridica.Config.Isolation.Proofs
import Fridica.Workers.Inputs.Spec
import Fridica.Workers.Inputs.Proofs
import Fridica.Daemon.Log.Spec
import Fridica.Daemon.Log.Proofs
import Fridica.Config.Migrate.Spec
import Fridica.Config.Migrate.Lifting
import Fridica.Config.Migrate.Proofs
import Fridica.Lib.Dialogue
import Fridica.Threads.Actor.Spec
import Fridica.Threads.Actor.Rules
import Fridica.Threads.Actor.Proofs
import Fridica.Threads.Actor.Runs
import Fridica.Threads.Service.Spec
import Fridica.Threads.Service.Proofs
import Fridica.Threads.History.Spec
import Fridica.Threads.History.Proofs
import Fridica.Control.Api.Spec
import Fridica.Control.Api.Proofs
import Fridica.Control.Server.Spec
import Fridica.Control.Server.Proofs
import Fridica.Control.Commands.Spec
import Fridica.Control.Commands.Proofs
import Fridica.Exec.Isolation.Writes
import Fridica.Exec.Transport.Spec
import Fridica.Exec.Transport.Proofs
import Fridica.Workers.Launcher.Spec
import Fridica.Workers.Launcher.Proofs
import Fridica.Lib.Frame
import Fridica.Workers.Artifacts.Spec
import Fridica.Workers.Artifacts.Proofs
import Fridica.Workers.Fetch.Spec
import Fridica.Workers.Fetch.Rules
import Fridica.Workers.Fetch.Proofs
import Fridica.Slack.Intake.Spec
import Fridica.Slack.Intake.Ledger
import Fridica.Slack.Intake.Proofs
