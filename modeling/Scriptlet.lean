import Scriptlet.Command.Folder
import Scriptlet.Host.Stock
import Scriptlet.Main
import Scriptlet.Proofs.Code.Endings
import Scriptlet.Proofs.Code.Labels
import Scriptlet.Proofs.Code.Operands
import Scriptlet.Proofs.Command.Stored
import Scriptlet.Proofs.Image.Cuts
import Scriptlet.Proofs.Image.Decoding
import Scriptlet.Proofs.Image.Modifiers
import Scriptlet.Proofs.Machine.Agreement
import Scriptlet.Proofs.Machine.Arithmetic
import Scriptlet.Proofs.Machine.CallerScopes
import Scriptlet.Proofs.Machine.ConstantFrames
import Scriptlet.Proofs.Machine.Constants
import Scriptlet.Proofs.Machine.Declarations
import Scriptlet.Proofs.Machine.Isolation
import Scriptlet.Proofs.Machine.Ownership
import Scriptlet.Proofs.Machine.ReturnTypes
import Scriptlet.Proofs.Machine.ScopeChain
import Scriptlet.Proofs.Machine.TailCalls
import Scriptlet.Proofs.Machine.TypedSlots
import Scriptlet.Proofs.Scope.Circles
import Scriptlet.Proofs.Scope.Updates
import Scriptlet.Proofs.Token.Counters
import Scriptlet.Proofs.Token.Numerals
import Scriptlet.Proofs.Tree.Acceptance
import Scriptlet.Proofs.Tree.Termination
import Scriptlet.Proofs.Value.Stretches
