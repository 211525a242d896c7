import CBuild.Main
import CBuild.Machine.System
import CBuild.Proofs.Source.Following
import CBuild.Proofs.Source.Recursion
import CBuild.Proofs.Source.Reach
import CBuild.Proofs.Toml.Quoting
import CBuild.Proofs.Toml.Strings
import CBuild.Proofs.Toml.Trivia
import CBuild.Proofs.Manifest.Rendering
import CBuild.Proofs.Toml.Growing
import CBuild.Proofs.Toml.Rereading
import CBuild.Proofs.Manifest.Examples
import CBuild.Proofs.Machine.Parent
import CBuild.Proofs.Machine.Walking
import CBuild.Proofs.Source.Rounds
import CBuild.Proofs.Machine.Acting
import CBuild.Proofs.Manifest.LifeCycle
import CBuild.Proofs.Manifest.Replacing
import CBuild.Proofs.Manifest.Editing
import CBuild.Proofs.Project.Generating
import CBuild.Proofs.Machine.Sparing
import CBuild.Proofs.Manifest.Losing
import CBuild.Proofs.Project.Writing
import CBuild.Proofs.Machine.Watching
import CBuild.Proofs.Source.Agreement
import CBuild.Proofs.Source.Companion
import CBuild.Proofs.Machine.Making
import CBuild.Proofs.Manifest.Overwriting
import CBuild.Proofs.Machine.Onward
import CBuild.Proofs.Source.Naming
import CBuild.Proofs.Source.Repeating
import CBuild.Proofs.Source.Distinct
import CBuild.Proofs.Glob.Fitting
import CBuild.Proofs.Glob.Copying
import CBuild.Proofs.Glob.Relocating
import CBuild.Proofs.Source.Including
import CBuild.Proofs.Source.Scanning
import CBuild.Proofs.Source.Indexing
import CBuild.Proofs.Project.Regenerating
import CBuild.Proofs.Project.Staging
import CBuild.Proofs.Project.Composing
import CBuild.Proofs.Manifest.Retaining
import CBuild.Proofs.Manifest.Turning
import CBuild.Proofs.Path.Retracing
import CBuild.Proofs.Manifest.Accepting
import CBuild.Proofs.Project.Starting
import CBuild.Proofs.Source.Suffixes
