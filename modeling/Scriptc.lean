import Scriptc.Main
import Scriptc.Mips.Sequence
import Scriptc.Mips.Support
import Scriptc.Report.Registers
import Scriptc.Proofs.Targets
import Scriptc.Proofs.Allocation
import Scriptc.Proofs.Nesting
import Scriptc.Proofs.Convention
import Scriptc.Proofs.Dispatch
import Scriptc.Proofs.Naming
import Scriptc.Proofs.Grouping
import Scriptc.Proofs.Objects
import Scriptc.Proofs.SavedTree
import Scriptc.Proofs.Siblings
import Scriptc.Proofs.Accepted
import Scriptc.Proofs.Operators
import Scriptc.Proofs.Ancestry
import Scriptc.Proofs.Document
import Scriptc.Proofs.Spaced
import Scriptc.Proofs.Decimals
