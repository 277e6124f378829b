import LoxLang.Main
import LoxLang.Proofs.Scope.Writes
import LoxLang.Proofs.Scope.Methods
import LoxLang.Proofs.Grammar.Canonical
import LoxLang.Proofs.Grammar.Derivation
import LoxLang.Proofs.Grammar.Recovery
import LoxLang.Proofs.Session.Rejection
import LoxLang.Proofs.Session.Concatenation
import LoxLang.Proofs.Binding.Misuses
import LoxLang.Proofs.Machine.Printing
import LoxLang.Proofs.Session.Reports
import LoxLang.Proofs.Session.Identities
import LoxLang.Proofs.Token.Lines
import LoxLang.Proofs.Token.Layout
import LoxLang.Proofs.Machine.Names
import LoxLang.Proofs.Machine.Bodies
import LoxLang.Proofs.Machine.Termination
import LoxLang.Proofs.Session.Truncation
import LoxLang.Proofs.Session.Expressions
import LoxLang.Proofs.Renaming.Hygiene
import LoxLang.Proofs.Syntax.Draining
import LoxLang.Proofs.Session.Places
import LoxLang.Proofs.Scope.Initializers
import LoxLang.Proofs.Syntax.Excess
import LoxLang.Proofs.Loop.Meaning
import LoxLang.Proofs.Scope.Dispatch
import LoxLang.Proofs.Scope.Arguments
import LoxLang.Proofs.Machine.Cells
import LoxLang.Proofs.Machine.Code
import LoxLang.Proofs.Outline.Unambiguous
