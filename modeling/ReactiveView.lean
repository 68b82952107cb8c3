import ReactiveView.Hook.Bench
import ReactiveView.Main
import ReactiveView.Proofs.Hook.Exclusive
import ReactiveView.Proofs.Hook.Identity
import ReactiveView.Proofs.Render.Caching
import ReactiveView.Proofs.Render.Current
import ReactiveView.Proofs.Render.Discarding
import ReactiveView.Proofs.Render.Effects
import ReactiveView.Proofs.Render.Noninterference
import ReactiveView.Proofs.Render.Scoping
import ReactiveView.Proofs.Render.Standing
import ReactiveView.Proofs.Render.Visits
import ReactiveView.Proofs.Template.Complete
import ReactiveView.Proofs.Template.Evidence
import ReactiveView.Proofs.Template.Inverse
import ReactiveView.Proofs.Template.Joining
import ReactiveView.Proofs.Template.Lockstep
import ReactiveView.Proofs.Template.Places
import ReactiveView.Proofs.Template.ReadBack
import ReactiveView.Proofs.Template.References
import ReactiveView.Proofs.Template.Repair
import ReactiveView.Proofs.Template.Running
import ReactiveView.Proofs.Template.Turns
import ReactiveView.Proofs.Template.WellFormed
import ReactiveView.Proofs.Tree.Calls
import ReactiveView.Proofs.Tree.Conserving
import ReactiveView.Proofs.Tree.FewestMoves
import ReactiveView.Proofs.Tree.Forest
import ReactiveView.Proofs.Tree.Guests
import ReactiveView.Proofs.Tree.Keyed
import ReactiveView.Proofs.Tree.Listening
import ReactiveView.Proofs.Tree.Patching
import ReactiveView.Proofs.Tree.Shape
import ReactiveView.Proofs.Tree.Unambiguous
import ReactiveView.Proofs.Tree.Walks
import ReactiveView.Script.Definition
import ReactiveView.Value.Diagnostic
import ReactiveView.Value.Reading
