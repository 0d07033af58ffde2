import LineEndings.Main
import LineEndings.Proofs.Ending.Converting
import LineEndings.Proofs.Glob.Braces
import LineEndings.Proofs.Glob.Choosing
import LineEndings.Proofs.Glob.Expanding
import LineEndings.Proofs.Glob.Matching
import LineEndings.Proofs.Glob.Parts
import LineEndings.Proofs.Path.Address
import LineEndings.Proofs.Property.Precedence
import LineEndings.Proofs.Property.Reading
import LineEndings.Proofs.Property.Respelling
import LineEndings.Proofs.Tree.Locating
import LineEndings.Proofs.Tree.Walking
import LineEndings.Proofs.Workspace.Agreeing
import LineEndings.Proofs.Workspace.Collecting
import LineEndings.Proofs.Workspace.FixRun
import LineEndings.Proofs.Workspace.Mending
import LineEndings.Proofs.Workspace.Pruning
import LineEndings.Proofs.Path.Above
import LineEndings.Proofs.Property.Containing
import LineEndings.Proofs.Property.Separate
import LineEndings.Proofs.Settings.Discovering
import LineEndings.Proofs.Settings.UserFile
import LineEndings.Proofs.Glob.Rendering
import LineEndings.Proofs.Glob.Alternatives
import LineEndings.Proofs.Glob.Splitting
import LineEndings.Proofs.Command.Reporting
import LineEndings.Proofs.Ending.Passing
import LineEndings.Proofs.Glob.Segments
import LineEndings.Proofs.Glob.Quoting
import LineEndings.Proofs.Glob.Joining
import LineEndings.Proofs.Ending.Lines
import LineEndings.Proofs.Path.Normalizing
import LineEndings.Proofs.Text.Encoding
import LineEndings.Proofs.Workspace.Appending
import LineEndings.Proofs.Workspace.Rereading
import LineEndings.Proofs.Workspace.Expecting
import LineEndings.Proofs.Workspace.Excluding
import LineEndings.Proofs.Command.Spelling
import LineEndings.Proofs.Text.Ordering
import LineEndings.Proofs.Workspace.Listing
import LineEndings.Proofs.Settings.Merging
import LineEndings.Proofs.Glob.Occurring
import LineEndings.Proofs.Glob.Satisfying
import LineEndings.Proofs.Settings.Accepting
import LineEndings.Proofs.Path.Detours
import LineEndings.Proofs.Tree.Ascending
import LineEndings.Proofs.Settings.Detours
import LineEndings.Proofs.Glob.Pairing
import LineEndings.Proofs.Glob.Ranges
import LineEndings.Proofs.Glob.Stepping
import LineEndings.Proofs.Glob.Spanning
