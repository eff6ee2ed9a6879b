import Whale.Asmobj.Run
import Whale.Assembler.AArch64.Move
import Whale.Assembler.Amd64.Branches
import Whale.Assembler.Amd64.Expression
import Whale.Assembler.Amd64.Meaning
import Whale.Assembler.Amd64.Tokenize
import Whale.Assembler.Fixed.IntegerGrammar
import Whale.Assembler.Fixed.Passes
import Whale.Backend.Artifacts
import Whale.Builder.SourceSession
import Whale.Float.Compare
import Whale.Float.Conversion
import Whale.Float.LiteralSpec
import Whale.Frontend.Interchange
import Whale.IR.Pass
import Whale.Interp.Activations
import Whale.Interp.Budget
import Whale.Interp.Effects
import Whale.Interp.GepSpec
import Whale.Linker.ArchiveInverts
import Whale.Linker.Inspect
import Whale.Linker.Program
import Whale.Linker.ReadBudgetConserved
import Whale.Linker.RelocationOrder
import Whale.Lower.Erase
import Whale.Object.OutputLimits
import Whale.Reverse.Annotations
import Whale.Verifier.CfgVerify
import Whale.Verifier.ConstantsCorrect
