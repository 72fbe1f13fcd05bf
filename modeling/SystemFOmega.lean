import SystemFOmega.Main
import SystemFOmega.Proofs.Core.Nameless
import SystemFOmega.Proofs.Core.Equiv
import SystemFOmega.Proofs.Checker.Complete
import SystemFOmega.Proofs.Checker.Exact
import SystemFOmega.Proofs.Checker.Safety
import SystemFOmega.Proofs.Core.Substitution
import SystemFOmega.Proofs.Core.Kinding
import SystemFOmega.Proofs.Core.NormalForm
import SystemFOmega.Proofs.Core.Fuel
import SystemFOmega.Proofs.Checker.Core
import SystemFOmega.Proofs.Core.Relabel
import SystemFOmega.Proofs.Core.Twin
import SystemFOmega.Proofs.Surface.Binders
import SystemFOmega.Proofs.Checker.Memo
import SystemFOmega.Proofs.Checker.Proper
import SystemFOmega.Proofs.Checker.KindInference
import SystemFOmega.Proofs.Surface.Grammar
import SystemFOmega.Proofs.Surface.Resolution
import SystemFOmega.Proofs.Surface.Reading
import SystemFOmega.Proofs.Surface.Recognition
import SystemFOmega.Proofs.Surface.RoundTrip
import SystemFOmega.Proofs.Surface.Freshness
import SystemFOmega.Proofs.Surface.Strategies
import SystemFOmega.Proofs.Checker.Failures
import SystemFOmega.Proofs.Checker.Watch
import SystemFOmega.Proofs.Checker.Unused
import SystemFOmega.Proofs.Checker.ReadBack
import SystemFOmega.Proofs.Checker.Places
import SystemFOmega.Proofs.Interactive
import SystemFOmega.Proofs.Checker.Fuel
import SystemFOmega.Proofs.Core.Invariance
import SystemFOmega.Proofs.Surface.NormalForms
import SystemFOmega.Proofs.Checker.Calls
import SystemFOmega.Proofs.Checker.Renaming
import SystemFOmega.Proofs.Token.Layout
import SystemFOmega.Proofs.Surface.FirstFault
import SystemFOmega.Proofs.Diagnostic.Similar
import SystemFOmega.Proofs.Surface.Spacing
