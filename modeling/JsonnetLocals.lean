import JsonnetLocals.Bundle.Run
import JsonnetLocals.Cli.Program
import JsonnetLocals.Config.Store
import JsonnetLocals.Log.Registry
import JsonnetLocals.Main
import JsonnetLocals.Rename.Renamer
import JsonnetLocals.Syntax.Parse
import JsonnetLocals.Proofs.Bundle.Faithful
import JsonnetLocals.Proofs.Rename.Capture
import JsonnetLocals.Proofs.Rename.Insertions
import JsonnetLocals.Proofs.Rename.Records
import JsonnetLocals.Proofs.Syntax.Accept
import JsonnetLocals.Proofs.Syntax.Locations
import JsonnetLocals.Proofs.Syntax.Spelling
import JsonnetLocals.Proofs.Syntax.Language
import JsonnetLocals.Proofs.Bundle.Contained
import JsonnetLocals.Proofs.Bundle.Header
import JsonnetLocals.Proofs.Bundle.Failures
import JsonnetLocals.Proofs.Log.Consoles
import JsonnetLocals.Proofs.Source.Simultaneous
import JsonnetLocals.Proofs.Rename.NewNames
import JsonnetLocals.Proofs.Bundle.Endings
import JsonnetLocals.Proofs.Cli.Status
import JsonnetLocals.Proofs.Syntax.Strings
import JsonnetLocals.Proofs.Syntax.TextBlock
import JsonnetLocals.Proofs.Files.Identity
import JsonnetLocals.Proofs.Rename.Places
import JsonnetLocals.Proofs.Rename.History
import JsonnetLocals.Proofs.Cli.Settings
import JsonnetLocals.Proofs.Config.Saved
import JsonnetLocals.Proofs.Syntax.Layout
import JsonnetLocals.Proofs.Output.Statistics
import JsonnetLocals.Proofs.Source.Drift
