import FSharpWorkspace.Cache.Program
import FSharpWorkspace.CrackReport.Json
import FSharpWorkspace.Main
import FSharpWorkspace.Proofs.CommandLine.Projects
import FSharpWorkspace.Proofs.CrackReport.ByName
import FSharpWorkspace.Proofs.Machine.Canonical
import FSharpWorkspace.Proofs.Machine.Deleted
import FSharpWorkspace.Proofs.Machine.Kinds
import FSharpWorkspace.Proofs.Machine.Restored
import FSharpWorkspace.Proofs.Nesting.Programs
import FSharpWorkspace.Proofs.Nesting.Published
import FSharpWorkspace.Proofs.Reentry.Restores
import FSharpWorkspace.Proofs.Resolution.Alike
import FSharpWorkspace.Proofs.Resolution.Derived
import FSharpWorkspace.Proofs.Scripts.Coherent
import FSharpWorkspace.Proofs.Scripts.Literals
import FSharpWorkspace.Proofs.Scripts.LoadOrder
import FSharpWorkspace.Proofs.Sequential.Authored
import FSharpWorkspace.Proofs.Sequential.Broken
import FSharpWorkspace.Proofs.Sequential.Coherent
import FSharpWorkspace.Proofs.Sequential.Declared
import FSharpWorkspace.Proofs.Sequential.Entered
import FSharpWorkspace.Proofs.Sequential.Genuine
import FSharpWorkspace.Proofs.Sequential.Lazy
import FSharpWorkspace.Proofs.Sequential.Marks
import FSharpWorkspace.Proofs.Sequential.Moments
import FSharpWorkspace.Proofs.Sequential.Owners
import FSharpWorkspace.Proofs.Sequential.Registered
import FSharpWorkspace.Proofs.Sequential.Visible
import FSharpWorkspace.Proofs.Settings.Merged
import FSharpWorkspace.Proofs.Solutions.Listing
import FSharpWorkspace.Proofs.Threads.Arrivals
import FSharpWorkspace.Proofs.Threads.SameFile
import FSharpWorkspace.Proofs.Workspace.Impact
import FSharpWorkspace.Session.Disk
import FSharpWorkspace.Session.Memory
