import GemStaging.Command.Completion
import GemStaging.Command.Printing
import GemStaging.Command.Reading
import GemStaging.Command.Request
import GemStaging.Command.Running
import GemStaging.Decimal.Binary64
import GemStaging.Decimal.Shortest
import GemStaging.Deploy.Control
import GemStaging.Deploy.Cycle
import GemStaging.Deploy.Packager
import GemStaging.Deploy.Plan
import GemStaging.Deploy.Verify
import GemStaging.DirIndex.Basic
import GemStaging.DirIndex.Writing
import GemStaging.Disk.Access
import GemStaging.Disk.Basic
import GemStaging.Disk.Resolve
import GemStaging.Effect
import GemStaging.Fault
import GemStaging.Files.Basic
import GemStaging.Files.Copy
import GemStaging.Http.Network
import GemStaging.Http.Transport
import GemStaging.Http.Url
import GemStaging.Layout
import GemStaging.Log
import GemStaging.Main
import GemStaging.Manifest.Basic
import GemStaging.Manifest.Config
import GemStaging.Manifest.Reading
import GemStaging.Package
import GemStaging.Path
import GemStaging.Program.Basic
import GemStaging.Program.CommandLine
import GemStaging.Program.Running
import GemStaging.Proofs.Command.Precedence
import GemStaging.Proofs.Command.Prediction
import GemStaging.Proofs.Command.Words
import GemStaging.Proofs.Deploy.Evidence
import GemStaging.Proofs.Deploy.Phases
import GemStaging.Proofs.Deploy.Protocol
import GemStaging.Proofs.Deploy.Repetition
import GemStaging.Proofs.Deploy.Reshipping
import GemStaging.Proofs.Deploy.Shipping
import GemStaging.Proofs.Deploy.Verdict
import GemStaging.Proofs.DirIndex.Indexing
import GemStaging.Proofs.DirIndex.Lines
import GemStaging.Proofs.DirIndex.Places
import GemStaging.Proofs.DirIndex.Rooting
import GemStaging.Proofs.Disk.Agreement
import GemStaging.Proofs.Disk.Approaching
import GemStaging.Proofs.Disk.Around
import GemStaging.Proofs.Disk.Counting
import GemStaging.Proofs.Disk.Growth
import GemStaging.Proofs.Disk.Listing
import GemStaging.Proofs.Disk.Plain
import GemStaging.Proofs.Disk.Reaching
import GemStaging.Proofs.Disk.Threading
import GemStaging.Proofs.Disk.Walk
import GemStaging.Proofs.Effect.Moves
import GemStaging.Proofs.Effect.Respects
import GemStaging.Proofs.Files.Agreement
import GemStaging.Proofs.Files.Aliasing
import GemStaging.Proofs.Files.Clearing
import GemStaging.Proofs.Files.Confinement
import GemStaging.Proofs.Files.Copy
import GemStaging.Proofs.Files.Endless
import GemStaging.Proofs.Files.Footprint
import GemStaging.Proofs.Files.Growth
import GemStaging.Proofs.Files.Laying
import GemStaging.Proofs.Files.Limits
import GemStaging.Proofs.Files.Making
import GemStaging.Proofs.Files.Mirroring
import GemStaging.Proofs.Files.Overlay
import GemStaging.Proofs.Files.Overlaying
import GemStaging.Proofs.Files.Repeating
import GemStaging.Proofs.Files.Revealing
import GemStaging.Proofs.Files.Rewriting
import GemStaging.Proofs.Files.Sparing
import GemStaging.Proofs.Files.Tallying
import GemStaging.Proofs.Files.Visiting
import GemStaging.Proofs.Files.Walking
import GemStaging.Proofs.Files.Writing
import GemStaging.Proofs.Manifest.Locating
import GemStaging.Proofs.Manifest.Resolution
import GemStaging.Proofs.Manifest.Validity
import GemStaging.Proofs.Path.Hops
import GemStaging.Proofs.Path.Parent
import GemStaging.Proofs.Property.Interpolation
import GemStaging.Proofs.Property.Overrides
import GemStaging.Proofs.Property.Spelling
import GemStaging.Proofs.Staging.Agreement
import GemStaging.Proofs.Staging.Confinement
import GemStaging.Proofs.Staging.Fetching
import GemStaging.Proofs.Staging.Growth
import GemStaging.Proofs.Staging.History
import GemStaging.Proofs.Staging.Idempotence
import GemStaging.Proofs.Staging.Merging
import GemStaging.Proofs.Staging.Naming
import GemStaging.Proofs.Staging.Order
import GemStaging.Proofs.Staging.Phases
import GemStaging.Proofs.Staging.Publishing
import GemStaging.Proofs.Staging.Requiring
import GemStaging.Proofs.Staging.Reserving
import GemStaging.Proofs.Staging.Separation
import GemStaging.Proofs.Staging.Steps
import GemStaging.Proofs.Staging.Stubbing
import GemStaging.Proofs.Staging.Supply
import GemStaging.Proofs.Staging.Touching
import GemStaging.Proofs.Staging.Withholding
import GemStaging.Proofs.Text.Cutting
import GemStaging.Proofs.Text.Decoding
import GemStaging.Proofs.Text.Ordering
import GemStaging.Proofs.Text.Trimming
import GemStaging.Proofs.Yaml.Lone
import GemStaging.Proofs.Yaml.Resolution
import GemStaging.Property.Argument
import GemStaging.Property.Basic
import GemStaging.Property.Scalar
import GemStaging.Shell.Arithmetic
import GemStaging.Shell.Expansion
import GemStaging.Shell.Image
import GemStaging.Shell.Pattern
import GemStaging.Shell.Printing
import GemStaging.Shell.Programs
import GemStaging.Shell.Reading
import GemStaging.Shell.Running
import GemStaging.Shell.Script
import GemStaging.Shell.Session
import GemStaging.Shell.Token
import GemStaging.Shell.Tool
import GemStaging.Staging.Installer
import GemStaging.Staging.Plan
import GemStaging.Staging.Repository
import GemStaging.Staging.Run
import GemStaging.Staging.Stager
import GemStaging.Staging.Stub
import GemStaging.Table
import GemStaging.Text.Blank
import GemStaging.Text.Digits
import GemStaging.Text.Escaped
import GemStaging.Text.Hidden
import GemStaging.Text.Json
import GemStaging.Text.Search
import GemStaging.Text.Utf8
import GemStaging.World
import GemStaging.Yaml.Cursor
import GemStaging.Yaml.Decode
import GemStaging.Yaml.Document
import GemStaging.Yaml.Event
import GemStaging.Yaml.Plain
import GemStaging.Yaml.ScalarText
import GemStaging.Yaml.Token
import GemStaging.Yaml.TokenReader
