import Nmos6502.Bus.Board
import Nmos6502.Bus.Journalled
import Nmos6502.FrontPanel
import Nmos6502.Machine.Command
import Nmos6502.Proofs.Balanced
import Nmos6502.Proofs.Budget
import Nmos6502.Proofs.HaltOrigin
import Nmos6502.Proofs.ModeFlags
import Nmos6502.Proofs.Parametric
import Nmos6502.Proofs.Retired
import Nmos6502.Proofs.Configuration
import Nmos6502.Proofs.Image
import Nmos6502.Proofs.StraightLine
import Nmos6502.Proofs.Panel
import Nmos6502.Proofs.Log
import Nmos6502.Proofs.DataTable
import Nmos6502.Proofs.NextPc
import Nmos6502.Proofs.BusTrace
import Nmos6502.Proofs.Addressing
import Nmos6502.Proofs.LittleEndian
import Nmos6502.Proofs.Multibyte
import Nmos6502.Proofs.MultibyteShifts
import Nmos6502.Proofs.Load
import Nmos6502.Proofs.Faults
import Nmos6502.Proofs.Encodings
import Nmos6502.Proofs.CopyLoop
import Nmos6502.Proofs.LastWrite
import Nmos6502.Proofs.Ring
import Nmos6502.Proofs.Checked
import Nmos6502.Proofs.Wording
