import NginxAdmin.Lib.Prog
import NginxAdmin.Lib.Pool
import NginxAdmin.Lib.Triple
import NginxAdmin.Lib.History
import NginxAdmin.Lib.Text
import NginxAdmin.Lib.Files
import NginxAdmin.Lib.Sha256
import NginxAdmin.Lib.StableSort
import NginxAdmin.Lib.Json
import NginxAdmin.Lib.Regex
import NginxAdmin.Lib.JsonSchema
import NginxAdmin.Lib.LowerCase
import NginxAdmin.Lib.NginxConf
import NginxAdmin.Lib.Js
import NginxAdmin.Lib.Zod
import NginxAdmin.Daemon.Model
import NginxAdmin.Daemon.Validate
import NginxAdmin.Daemon.Accepted
import NginxAdmin.Daemon.Render
import NginxAdmin.Daemon.World
import NginxAdmin.Daemon.DirOps
import NginxAdmin.Daemon.StateStore
import NginxAdmin.Lib.Decimal
import NginxAdmin.Daemon.Http
import NginxAdmin.Daemon.Apply
import NginxAdmin.Daemon.Service
import NginxAdmin.Daemon.Rules
import NginxAdmin.Daemon.Staging
import NginxAdmin.Daemon.Hosts
import NginxAdmin.Daemon.StoreInv
import NginxAdmin.Daemon.StoreRun
import NginxAdmin.Daemon.StorePut
import NginxAdmin.Daemon.Revisions
import NginxAdmin.Daemon.Pending
import NginxAdmin.Daemon.ApplyInv
import NginxAdmin.Daemon.Pipeline
import NginxAdmin.Daemon.ApplyRun
import NginxAdmin.Daemon.CommitGate
import NginxAdmin.Daemon.Drift
import NginxAdmin.Daemon.Reconcile
import NginxAdmin.Daemon.Convergence
import NginxAdmin.Daemon.Restart
import NginxAdmin.Daemon.Alike
import NginxAdmin.Daemon.Timestamp
import NginxAdmin.Daemon.Snapshots
import NginxAdmin.Daemon.Codec
import NginxAdmin.Daemon.Crash
import NginxAdmin.Daemon.Conforms
import NginxAdmin.Daemon.Schema
import NginxAdmin.Daemon.PutResult
import NginxAdmin.Daemon.Published
import NginxAdmin.Daemon.Structure
import NginxAdmin.Daemon.Includes
import NginxAdmin.Web.Secrets
import NginxAdmin.Web.Stricter
import NginxAdmin.Web.Types
import NginxAdmin.Web.Overlap
import NginxAdmin.Web.HookRepository
import NginxAdmin.Web.UseCases
import NginxAdmin.Web.RoutesStore
import NginxAdmin.Web.Serial
import NginxAdmin.Web.Sanitize
import NginxAdmin.Desktop.EnvFile
import NginxAdmin.Desktop.Migration
import NginxAdmin.Desktop.SSHExecutor
import NginxAdmin.Desktop.SSHSharing
import NginxAdmin.Daemon.CommandLog
import NginxAdmin.Daemon.CommitSwitch
import NginxAdmin.Web.FieldNames
import NginxAdmin.Web.LogsStore
import NginxAdmin.Lib.Greedy
import NginxAdmin.Lib.JsTypes
import NginxAdmin.Lib.Replace
import NginxAdmin.Web.AssignedSecrets
import NginxAdmin.Web.UrlPass
import NginxAdmin.Web.HeaderSchemes
import NginxAdmin.Web.Redaction
import NginxAdmin.Web.NormalForms
import NginxAdmin.Daemon.TreeHash
import NginxAdmin.Lib.FileSets
import NginxAdmin.Lib.Shell
import NginxAdmin.Daemon.Quoting
import NginxAdmin.Desktop.Bootstrap
import NginxAdmin.Web.SchemaOutput
import NginxAdmin.Lib.NginxShape
import NginxAdmin.Web.ConfigGenerator
import NginxAdmin.Web.Preview
import NginxAdmin.Lib.JsPlain
import NginxAdmin.Web.DateTexts
import NginxAdmin.Web.StoredRoutes
import NginxAdmin.Desktop.LocalRouteExecutor
import NginxAdmin.Lib.Utf8
import NginxAdmin.Desktop.StreamText
import NginxAdmin.Lib.Lines
import NginxAdmin.Desktop.MigrationResult
import NginxAdmin.Desktop.ExecOnClient
import NginxAdmin.Lib.OsPath
import NginxAdmin.Lib.Listing
import NginxAdmin.Daemon.HashDirectory
import NginxAdmin.Lib.Except
import NginxAdmin.Lib.JsonWrite
import NginxAdmin.Desktop.KeytarSecretsRepository
import NginxAdmin.Web.RouteForm
import NginxAdmin.Daemon.Automaton
import NginxAdmin.Daemon.Instance
import NginxAdmin.Daemon.Progress
import NginxAdmin.Daemon.Confined
import NginxAdmin.Desktop.RemoteCommand
import NginxAdmin.Desktop.BootstrapIpc
import NginxAdmin.Desktop.Startup
import NginxAdmin.Web.RoutesPage
